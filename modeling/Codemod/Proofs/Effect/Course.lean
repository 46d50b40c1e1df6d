/-
The course of a rule.

The rewrites of a rule happen one after the other, each in the program
that the ones before have left (`Course`). Over the whole course an
effect of the program that no rewrite spends gets lost only where the
template of a tagged call is left out, and two change places only where
the value and the array of an `inArray` call do. What is lost does not
come back (`Course.loses`); what has changed places does not change back
(`Course.swaps`), since it no longer stands in different arguments.
So the rule keeps the effects of the program just when each of its
rewrites is careful (`Course.effectsKept_iff`).
-/
import Codemod.Analysis.Scope
import Codemod.Proofs.Effect.Step

namespace Codemod

/-- Rewrites one after the other, all of them of expressions of one
kind. -/
inductive Course (names : List Text) (k : Symbol) :
    Workspace → List Rewrite → Workspace → Prop where
  | done {w : Workspace} : w.Sound → Course names k w [] w
  | step {w w' : Workspace} {r : Rewrite} {p : Cursor} {rs : List Rewrite} :
    Step names k w r p → Course names k (w.after r p) rs w' →
    Course names k w (r :: rs) w'

namespace Course

variable {names : List Text} {k : Symbol} {w w' : Workspace}
  {rs : List Rewrite} {i j : Nat}

theorem start (h : Course names k w rs w') : w.Sound := by
  cases h with
  | done hw => exact hw
  | step hs _ => exact hs.sound

theorem append {v : Workspace} {rs' : List Rewrite} (h : Course names k w rs v)
    (h' : Course names k v rs' w') : Course names k w (rs ++ rs') w' := by
  induction h with
  | done _ => exact h'
  | step hs _ ih => exact Course.step hs (ih h')

theorem sound (h : Course names k w rs w') : w'.Sound ∧ w.next ≤ w'.next := by
  induction h with
  | done hw => exact ⟨hw, Nat.le_refl _⟩
  | step hs _ ih => exact ⟨ih.1, Nat.le_trans hs.sound_after.2 ih.2⟩

/-- Nothing old appears. -/
theorem mem_back (h : Course names k w rs w') {q : Kind → Bool → Bool}
    (hi : i < w.next) (hmem : i ∈ w'.program.listed q) :
    i ∈ w.program.listed q := by
  induction h with
  | done _ => exact hmem
  | step hs _ ih =>
      exact hs.mem_of_mem_after hi
        (ih (Nat.lt_of_lt_of_le hi hs.sound_after.2) hmem)

-- ============================================================= what stays

theorem keeps (h : Course names k w rs w') (hi : i ∈ w.program.effects)
    (hspent : ∀ r ∈ rs, i ∉ r.site.spent names)
    (ht : ∀ r ∈ rs, i ∉ r.site.templateEffects) : i ∈ w'.program.effects := by
  induction h with
  | done _ => exact hi
  | step hs _ ih =>
      rw [List.forall_mem_cons] at hspent ht
      exact ih (hs.keeps hi hspent.1 ht.1) hspent.2 ht.2

/-- Effects that are never exchanged stay in order, if they stay. -/
theorem order_kept (h : Course names k w rs w')
    (hij : [i, j].Sublist w.program.effects)
    (hno : ∀ r ∈ rs, ¬ r.site.Swaps i j) (hi : i ∈ w'.program.effects)
    (hj : j ∈ w'.program.effects) : [i, j].Sublist w'.program.effects := by
  induction h with
  | done _ => exact hij
  | @step w _ r p _ hs hrest ih =>
      rw [List.forall_mem_cons] at hno
      have hlt : ∀ l ∈ [i, j], l < (w.after r p).next := fun l hl =>
        Nat.lt_of_lt_of_le (hs.sound.bounded l
          (Node.mem_ids_of_mem_listed (hij.subset hl))) hs.sound_after.2
      refine ih (hs.order_kept hij hno.1 ?_ ?_) hno.2 hi hj
      · exact hrest.mem_back (hlt i (by simp)) hi
      · exact hrest.mem_back (hlt j (by simp)) hj

-- ========================================================= what is undone

/-- What a template held is lost for good. -/
theorem loses {r : Rewrite} (h : Course names k w rs w') (hr : r ∈ rs)
    (hlt : i < w.next) (hi : i ∈ r.site.templateEffects) :
    i ∉ w'.program.effects := by
  induction h with
  | done _ => cases hr
  | step hs hrest ih =>
      have hlt' := Nat.lt_of_lt_of_le hlt hs.sound_after.2
      rcases List.mem_cons.1 hr with rfl | hr
      · exact fun hmem => hs.loses hi (hrest.mem_back hlt' hmem)
      · exact ih hr hlt'

/-- Rewrites of comparisons separate nothing. -/
theorem splits_back (h : Course names .binaryExpression w rs w')
    (hi : i < w.next) (hj : j < w.next) (hs : w'.program.Splits i j) :
    w.program.Splits i j := by
  induction h with
  | done _ => exact hs
  | step hst _ ih =>
      have hle := hst.sound_after.2
      exact hst.splits_back hi hj (ih (by omega) (by omega) hs)

/-- What does not stand in different arguments does not change its
order. -/
theorem order_back (h : Course names .binaryExpression w rs w')
    (hi : i < w.next) (hj : j < w.next) (hno : ¬ w.program.Splits i j)
    (hij : [i, j].Sublist w'.program.effects) :
    [i, j].Sublist w.program.effects := by
  induction h with
  | done _ => exact hij
  | step hs _ ih =>
      have hle := hs.sound_after.2
      have hafter := ih (by omega) (by omega)
        (fun h => hno (hs.splits_back hi hj h)) hij
      exact hs.order_back hi hj (fun h => hno (hs.splits_swaps h).symm) hafter

/-- What is exchanged stood in the one order before, and does not stand in
it in the end. -/
theorem swaps {r : Rewrite} (h : Course names k w rs w') (hr : r ∈ rs)
    (hi : i < w.next) (hj : j < w.next) (hs : r.site.Swaps i j) :
    k = .binaryExpression ∧ w.program.Splits i j
      ∧ [i, j].Sublist w.program.effects
      ∧ ¬ [i, j].Sublist w'.program.effects := by
  induction h with
  | done _ => cases hr
  | @step w w' r₀ p rs hstep hrest ih =>
      have hle := hstep.sound_after.2
      rcases List.mem_cons.1 hr with rfl | hr
      · obtain rfl := hstep.kind_of_swaps hs
        obtain ⟨hbefore, hafter⟩ := hstep.order_swaps hs
        refine ⟨rfl, hstep.splits_swaps hs, hbefore, fun hij => ?_⟩
        have hij' := hrest.order_back (by omega) (by omega)
          (hstep.not_splits_after hs) hij
        exact not_pair_sublist_swap
          (hrest.start.nodup.sublist (Node.listed_sublist_ids _ _)) hij' hafter
      · obtain ⟨rfl, hsplits, hbefore, hnot⟩ := ih hr (by omega) (by omega)
        refine ⟨rfl, hstep.splits_back hi hj hsplits, ?_, hnot⟩
        refine hstep.order_back hi hj (fun hback => ?_) hbefore
        exact hstep.not_splits_after hback hsplits.symm

end Course

-- ======================================================= what a rule does

namespace Sweep

/-- The rewrites that a visit to candidates makes. -/
def rewritesOver (s : Sweep) (context : RuleContext) :
    List Nat → Workspace → List Rewrite
  | [], _ => []
  | i :: rest, w =>
    match w.findInProgram? i with
    | none => s.rewritesOver context rest w
    | some c =>
      match s.replacement context c with
      | .error _ => []
      | .ok none => s.rewritesOver context rest w
      | .ok (some new) =>
        match c.parent? with
        | none => []
        | some p =>
          ⟨c, new⟩ :: s.rewritesOver context rest (w.splice p.node c.node new)

/-- The rewrites of a sweep. -/
def rewrites (s : Sweep) (context : RuleContext) (w : Workspace) :
    List Rewrite :=
  s.rewritesOver context (s.candidates w) w

end Sweep

/-- The rewrites of sweeps one after the other. -/
def rewritesOfSweeps (context : RuleContext) :
    List Sweep → Workspace → List Rewrite
  | [], _ => []
  | s :: rest, w =>
    s.rewrites context w ++
      match s.run context w with
      | (w', .ok _) => rewritesOfSweeps context rest w'
      | (_, .error _) => []

/-- The rewrites of a rule. -/
def Rule.rewrites (rule : Rule) (context : RuleContext) (w : Workspace) :
    List Rewrite :=
  match rule.action with
  | .sweeps sweeps => rewritesOfSweeps context sweeps w
  | .onProgram _ => []

/-- The identities are those of expressions of one kind, as far as they
are in the program at all. -/
def Workspace.AllOfKind (w : Workspace) (k : Symbol) (is : List Nat) : Prop :=
  ∀ i ∈ is, i < w.next ∧ ∀ m ∈ w.program.walk, m.id = some i → m.is k = true

theorem Step.allOfKind_after {names : List Text} {k : Symbol} {w : Workspace}
    {r : Rewrite} {p : Cursor} {is : List Nat} (h : Step names k w r p)
    (hall : w.AllOfKind k is) : (w.after r p).AllOfKind k is := by
  intro i hi
  obtain ⟨hlt, hkind⟩ := hall i hi
  refine ⟨Nat.lt_of_lt_of_le hlt h.sound_after.2, fun m hm hid => ?_⟩
  have hmem : i ∈ (w.after r p).program.listed fun kind _ => kind == m.kind :=
    Node.mem_listed.2 ⟨m, hm, hid, by simp⟩
  obtain ⟨d, hd, hdi, hdk⟩ := Node.mem_listed.1 (h.mem_of_mem_after hlt hmem)
  have := hkind d hd hdi
  rwa [Node.is, beq_iff_eq.1 hdk] at this

theorem Workspace.findInProgram?_eq_some {w : Workspace} {i : Nat} {c : Cursor}
    (h : w.findInProgram? i = some c) :
    c ∈ (Cursor.top w.program).walk ∧ c.node.id = some i :=
  ⟨List.mem_of_find?_eq_some h, by simpa using List.find?_some h⟩

theorem Workspace.Sound.stands {w : Workspace} {c : Cursor} (hw : w.Sound)
    (hc : c ∈ (Cursor.top w.program).walk) : c.Stands := by
  obtain ⟨hplaced, hroot⟩ := Cursor.mem_walk_top.1 hc
  refine ⟨hplaced, ?_, ?_⟩
  · rw [hroot]
    exact hw.shaped
  · rw [hroot]
    exact hw.nodup

namespace Sweep

variable {s : Sweep} {k : Symbol} {context : RuleContext} {w : Workspace}

theorem allOfKind_candidates (hs : s.Keeps k) (hw : w.Sound) :
    w.AllOfKind k (s.candidates w) := by
  intro i hi
  obtain ⟨c, hc, hid⟩ := List.mem_filterMap.1 hi
  obtain ⟨hmem, hcand⟩ := List.mem_filter.1 hc
  have hwalk : c.node ∈ w.program.walk := Cursor.node_mem_walk hmem
  refine ⟨hw.bounded i (Node.mem_ids.2 ⟨c.node, hwalk, hid⟩), fun m hm hm' => ?_⟩
  rw [Node.eq_of_id_eq hw.nodup hm hwalk hm' hid]
  exact hs.kind c hcand

/-- A visit to candidates is a course. -/
theorem course_visit (hs : s.Keeps k) (hk : k ∈ siteSymbols) {is : List Nat}
    {changed : Bool} (hw : w.Sound) (hall : w.AllOfKind k is) :
    Course context.factoryNames k w (s.rewritesOver context is w)
      (s.visit context is changed w).1 := by
  induction is generalizing w changed with
  | nil => exact Course.done hw
  | cons i is ih =>
      have hrest : w.AllOfKind k is := fun j hj => hall j (List.mem_cons_of_mem _ hj)
      rw [rewritesOver, visit]
      cases hc : w.findInProgram? i with
      | none => exact ih hw hrest
      | some c =>
          obtain ⟨hmem, hid⟩ := Workspace.findInProgram?_eq_some hc
          have hck : c.is k = true :=
            (hall i List.mem_cons_self).2 c.node (Cursor.node_mem_walk hmem) hid
          simp only
          match hnew : s.replacement context c, hp : c.parent? with
          | .error _, _ => exact Course.done hw
          | .ok none, _ => exact ih hw hrest
          | .ok (some _), none => exact Course.done hw
          | .ok (some new), some p =>
              have hstep : Step context.factoryNames k w ⟨c, new⟩ p :=
                ⟨hw, hmem, hp, hck, hk,
                  hs.kept context c new (hw.stands hmem) hck hnew⟩
              exact Course.step hstep
                (ih hstep.sound_after.1 (hstep.allOfKind_after hrest))

theorem course_run (hs : s.Keeps k) (hk : k ∈ siteSymbols) (hw : w.Sound) :
    Course context.factoryNames k w (s.rewrites context w)
      (s.run context w).1 :=
  course_visit hs hk hw (allOfKind_candidates hs hw)

theorem course_runSweeps {sweeps : List Sweep} (hk : k ∈ siteSymbols)
    (hs : ∀ s ∈ sweeps, s.Keeps k) {changed : Bool} (hw : w.Sound) :
    Course context.factoryNames k w (rewritesOfSweeps context sweeps w)
      (runSweeps context sweeps changed w).1 := by
  induction sweeps generalizing w changed with
  | nil => exact Course.done hw
  | cons s rest ih =>
      rw [List.forall_mem_cons] at hs
      have hrun : Course context.factoryNames k w (s.rewrites context w)
          (s.run context w).1 := course_run hs.1 hk hw
      rw [rewritesOfSweeps, runSweeps]
      cases hr : s.run context w with
      | mk w' result =>
          rw [hr] at hrun
          cases result with
          | ok b => exact hrun.append (ih hs.2 hrun.sound.1)
          | error f =>
              rw [List.append_nil]
              exact hrun

end Sweep

-- ========================================================== conservation

/-- The nodes with two identities stand in one function body. -/
def Node.InOneBody (n : Node) (i j : Nat) : Prop :=
  ∃ c ∈ (Cursor.top n).walk, ∃ d ∈ (Cursor.top n).walk,
    c.node.id = some i ∧ d.node.id = some j ∧ c.functionScope? = d.functionScope?

/-- The effects of a program, those spent apart, are all in another once,
and those of one function body in the same order. -/
structure EffectsKept (spent : List Nat) (n n' : Node) : Prop where
  once : ∀ i ∈ n.effects, i ∉ spent → n'.ids.count i = 1
  ordered : ∀ i j, [i, j].Sublist n.effects → i ∉ spent → j ∉ spent →
    n.InOneBody i j → [i, j].Sublist n'.ids

/-- No effect of the program that is not spent is in a template that the
rewrite leaves out, and no two of one function body are exchanged. -/
structure Rewrite.Careful (n : Node) (spent : List Nat) (r : Rewrite) :
    Prop where
  template : ∀ i ∈ r.site.templateEffects, i ∈ n.effects → i ∈ spent
  exchange : ∀ i j, r.site.Swaps i j → i ∈ n.effects → j ∈ n.effects →
    n.InOneBody i j → i ∈ spent ∨ j ∈ spent

/-- What rewrites spend. -/
def spentBy (names : List Text) (rs : List Rewrite) : List Nat :=
  rs.flatMap fun r => r.site.spent names

namespace Course

variable {names : List Text} {k : Symbol} {w w' : Workspace}
  {rs : List Rewrite} {i j : Nat}

/-- An effect that is still there is there as an effect. -/
theorem mem_effects_of_mem_ids (h : Course names k w rs w')
    (hi : i ∈ w.program.effects) (hmem : i ∈ w'.program.ids) :
    i ∈ w'.program.effects := by
  obtain ⟨m, hm, hid⟩ := Node.mem_ids.1 hmem
  have hlt := h.start.bounded i (Node.mem_ids_of_mem_listed hi)
  have hback : i ∈ w.program.listed fun kind b => kind == m.kind && b == m.named :=
    h.mem_back hlt (Node.mem_listed.2 ⟨m, hm, hid, by simp⟩)
  obtain ⟨d, hd, hdi, hdk⟩ := Node.mem_listed.1 hback
  obtain ⟨e, he, hei, hek⟩ := Node.mem_listed.1 hi
  rw [Node.eq_of_id_eq h.start.nodup he hd hei hdi] at hek
  simp only [Bool.and_eq_true, beq_iff_eq] at hdk
  rw [hdk.1, hdk.2] at hek
  exact Node.mem_listed.2 ⟨m, hm, hid, hek⟩

theorem sublist_effects_of_ids (h : Course names k w rs w')
    (hij : [i, j].Sublist w.program.effects)
    (hmem : [i, j].Sublist w'.program.ids) :
    [i, j].Sublist w'.program.effects := by
  have hne : i ≠ j := by
    have := hij.nodup (h.start.nodup.sublist (Node.listed_sublist_ids _ _))
    rintro rfl
    simp at this
  have heff : ∀ l ∈ [i, j], l ∈ w'.program.effects := fun l hl =>
    h.mem_effects_of_mem_ids (hij.subset hl) (hmem.subset hl)
  refine (pair_sublist_or (heff i (by simp)) (heff j (by simp))
    hne).resolve_right fun hji => ?_
  exact not_pair_sublist_swap h.sound.1.nodup hmem
    (hji.trans (Node.listed_sublist_ids _ _))

/-- The effects of the program are kept just when every rewrite is
careful. -/
theorem effectsKept_iff (h : Course names k w rs w') :
    EffectsKept (spentBy names rs) w.program w'.program
      ↔ ∀ r ∈ rs, r.Careful w.program (spentBy names rs) := by
  have hlt : ∀ i ∈ w.program.effects, i < w.next := fun i hi =>
    h.start.bounded i (Node.mem_ids_of_mem_listed hi)
  constructor
  · intro hkept r hr
    constructor
    case template =>
      intro i hi hmem
      by_contra hspent
      have hcount := hkept.once i hmem hspent
      have hids : i ∈ w'.program.ids := by
        rw [← List.one_le_count_iff]
        omega
      exact h.loses hr (hlt i hmem) hi (h.mem_effects_of_mem_ids hmem hids)
    case exchange =>
      intro i j hs hi hj hbody
      by_contra hspent
      rw [not_or] at hspent
      obtain ⟨-, -, hbefore, hafter⟩ := h.swaps hr (hlt i hi) (hlt j hj) hs
      exact hafter (h.sublist_effects_of_ids hbefore
        (hkept.ordered i j hbefore hspent.1 hspent.2 hbody))
  · intro hcareful
    have hkeeps : ∀ i ∈ w.program.effects, i ∉ spentBy names rs →
        i ∈ w'.program.effects := by
      intro i hi hspent
      refine h.keeps hi (fun r hr hmem => ?_) fun r hr hmem => ?_
      · exact hspent (List.mem_flatMap.2 ⟨r, hr, hmem⟩)
      · exact hspent ((hcareful r hr).template i hmem hi)
    constructor
    case once =>
      intro i hi hspent
      exact List.count_eq_one_of_mem h.sound.1.nodup
        (Node.mem_ids_of_mem_listed (hkeeps i hi hspent))
    case ordered =>
      intro i j hij hi hj hbody
      have himem := hij.subset (show i ∈ [i, j] by simp)
      have hjmem := hij.subset (show j ∈ [i, j] by simp)
      refine List.Sublist.trans ?_ (Node.listed_sublist_ids isEffectKind _)
      refine h.order_kept hij (fun r hr hs => ?_) (hkeeps i himem hi)
        (hkeeps j hjmem hj)
      rcases (hcareful r hr).exchange i j hs himem hjmem hbody with hs | hs
      · exact hi hs
      · exact hj hs

end Course

end Codemod
