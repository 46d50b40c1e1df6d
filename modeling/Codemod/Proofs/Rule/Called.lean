/-
Calls of named methods stay such calls.

A sweep over methods collects its candidates before it begins, and
rewrites them one after the other. A candidate calls one of the methods
still when its turn comes (`Step.called_after`): a rewrite replaces calls
and comparisons, `this` in callbacks and lists of parameters, none of
which is a member access or the name in one (`Node.Calls.substitute`).
-/
import Codemod.Proofs.Rule.Parts
import Codemod.Proofs.Tree.Every

namespace Codemod

open Cursor

namespace Node

/-- The expression is a member access with one of the names, in
parentheses or not. -/
inductive Names (names : List String) : Node → Prop where
  | member {n : Node} {t : Text} : n.propertyName? = some t → t.isOneOf names = true →
    Names names n
  | within {n e : Node} : n.is .parenthesizedExpression = true → e ∈ n.operands →
    Names names e → Names names n

/-- The node calls one of the named methods. -/
def Calls (names : List String) (n : Node) : Prop :=
  ∃ g, n.child? .function = some g ∧ g.Names names

/-- The node is neither a member access nor the name in one, nor a pair
of parentheses. -/
structure IsOther (n : Node) : Prop where
  member : n.is .memberExpression = false
  parentheses : n.is .parenthesizedExpression = false
  name : n.is .propertyIdentifier = false

variable {names : List String} {n e : Node} {i k : Nat} {f : Node → Node → Node}
  {s : Symbol}

theorem isOther_of_kind (hk : n.is s = true)
    (hs : s ∉ [.memberExpression, .parenthesizedExpression, .propertyIdentifier]) :
    n.IsOther := by
  have hne : ∀ t ∈ [Symbol.memberExpression, .parenthesizedExpression,
      .propertyIdentifier], n.is t = false := fun t ht =>
    is_false_of_kind (is_iff.1 hk) fun heq => hs (heq ▸ ht)
  exact ⟨hne _ (by decide), hne _ (by decide), hne _ (by decide)⟩

theorem propertyName?_eq_some {t : Text} : n.propertyName? = some t
    ↔ n.is .memberExpression = true ∧ ∃ q, n.child? .property = some q
      ∧ q.is .propertyIdentifier = true ∧ q.text = some t := by
  unfold propertyName?
  cases n.is .memberExpression with
  | false => simp
  | true =>
      cases n.child? .property with
      | none => simp
      | some q => cases hq : q.is .propertyIdentifier <;> simp [hq]

theorem Names.not_isOther (h : n.Names names) : ¬ n.IsOther := by
  intro ho
  cases h with
  | member hname _ => cases (propertyName?_eq_some.1 hname).1.symm.trans ho.member
  | within hk _ _ => cases hk.symm.trans ho.parentheses

-- ========================================================== substitution

/-- What has an identity of its own is not replaced. -/
theorem child?_substitute (hrole : ∀ c ∈ n.children, c.id = some i →
      (f n c).role = c.role) (r : Role) :
    (n.substitute i f).child? r = (n.child? r).map (substituteChild i f n) := by
  have hsame : ∀ c ∈ n.children, (substituteChild i f n c).role = c.role := by
    intro c hc
    unfold substituteChild
    split
    · next hid => exact hrole c hc (by simpa using hid)
    · rw [substitute_eq]
  rw [child?, child?, substitute_eq]
  simp only
  generalize n.children = cs at hsame
  induction cs with
  | nil => rfl
  | cons c cs ih =>
      rw [List.forall_mem_cons] at hsame
      rw [List.map_cons, List.find?_cons, List.find?_cons, hsame.1]
      split
      · rfl
      · exact ih hsame.2

theorem substituteChild_of_ne {c : Node} (hc : c.id ≠ some i) :
    substituteChild i f n c = c.substitute i f :=
  if_neg (by simpa using hc)

theorem is_substitute (n : Node) (s : Symbol) : (n.substitute i f).is s = n.is s := by
  rw [substitute_eq]
  rfl

/-- A tree in which something else is replaced. -/
structure Apart (i : Nat) (f : Node → Node → Node) (n : Node) : Prop where
  isOther : ∀ d ∈ n.walk, d.id = some i → d.IsOther
  role : ∀ q, ∀ d ∈ n.walk, d.id = some i → (f q d).role = d.role

theorem Apart.of_mem_walk {d : Node} (h : n.Apart i f) (hd : d ∈ n.walk) :
    d.Apart i f :=
  ⟨fun e he => h.isOther e (mem_walk_trans hd he),
    fun q e he => h.role q e (mem_walk_trans hd he)⟩

theorem Apart.child? (h : n.Apart i f) (r : Role) :
    (n.substitute i f).child? r = (n.child? r).map (substituteChild i f n) :=
  child?_substitute (fun c hc => h.role n c (mem_walk_of_child hc (self_mem_walk c))) r

theorem Names.substitute (h : n.Names names) (ha : n.Apart i f) :
    (n.substitute i f).Names names := by
  induction h with
  | @member n t hname ht =>
      obtain ⟨hk, q, hq, hqk, hqt⟩ := propertyName?_eq_some.1 hname
      have hqmem : q ∈ n.walk :=
        mem_walk_of_child (List.mem_of_find?_eq_some hq) (self_mem_walk q)
      have hqid : q.id ≠ some i := fun hid => by
        cases hqk.symm.trans (ha.isOther q hqmem hid).name
      refine .member (propertyName?_eq_some.2 ⟨(is_substitute n _).trans hk,
        q.substitute i f, ?_, (is_substitute q _).trans hqk, ?_⟩) ht
      · rw [ha.child?, hq, Option.map_some, substituteChild_of_ne hqid]
      · rw [substitute_eq, hqt]
  | @within n e hk he hnames ih =>
      obtain ⟨hmem, hop⟩ := List.mem_filter.1 he
      have hwalk := mem_walk_of_child hmem (self_mem_walk e)
      have hid : e.id ≠ some i := fun hid =>
        hnames.not_isOther (ha.isOther e hwalk hid)
      refine .within ((is_substitute n _).trans hk) (List.mem_filter.2 ⟨?_, ?_⟩)
        (ih (ha.of_mem_walk hwalk))
      · rw [substitute_eq]
        exact List.mem_map.2 ⟨e, hmem, substituteChild_of_ne hid⟩
      · rw [substitute_eq]
        exact hop

/-- A call of a method is one whatever is replaced in it. -/
theorem Calls.substitute (h : n.Calls names) (ha : n.Apart i f) :
    (n.substitute i f).Calls names := by
  obtain ⟨g, hg, hnames⟩ := h
  have hwalk := mem_walk_of_child (List.mem_of_find?_eq_some hg) (self_mem_walk g)
  have hid : g.id ≠ some i := fun hid => hnames.not_isOther (ha.isOther g hwalk hid)
  refine ⟨g.substitute i f, ?_, hnames.substitute (ha.of_mem_walk hwalk)⟩
  rw [ha.child?, hg, Option.map_some, substituteChild_of_ne hid]

theorem every_substitute {Q : Node → Prop} (hn : n.id ≠ some i) (h : n.Every Q)
    (hQ : ∀ m ∈ n.walk, m.id ≠ some i → Q m → Q (m.substitute i f))
    (hf : ∀ q, ∀ d ∈ n.walk, d.id = some i → (f q d).Every Q) :
    (n.substitute i f).Every Q := by
  induction n using Node.ind with
  | h n ih =>
      rw [every_iff] at h ⊢
      refine ⟨hQ n (self_mem_walk n) hn h.1, fun e he => ?_⟩
      rw [substitute_eq] at he
      obtain ⟨c, hc, rfl⟩ := List.mem_map.1 he
      unfold substituteChild
      split
      · next hid =>
          exact hf n c (mem_walk_of_child hc (self_mem_walk c)) (by simpa using hid)
      · next hid =>
          exact ih c hc (by simpa using hid) (h.2 c hc)
            (fun m hm => hQ m (mem_walk_of_child hc hm))
            (fun q d hd => hf q d (mem_walk_of_child hc hd))

-- ============================================================= numbering

theorem propertyName?_copy (n : Node) : n.copy.propertyName? = n.propertyName? := by
  unfold propertyName?
  rw [is_copy, child?_copy]
  cases n.child? .property with
  | none => rfl
  | some q =>
      simp only [Option.map_some, is_copy]
      rw [copy_eq q]

theorem names_copy : n.copy.Names names ↔ n.Names names := by
  induction n using Node.ind with
  | h n ih =>
      constructor
      · intro h
        cases h with
        | member hname ht => exact .member ((propertyName?_copy n).symm.trans hname) ht
        | within hk he hnames =>
            rw [operands_copy] at he
            obtain ⟨c, hc, rfl⟩ := List.mem_map.1 he
            exact .within ((is_copy n _).symm.trans hk) hc
              ((ih c (List.mem_of_mem_filter hc)).1 hnames)
      · intro h
        cases h with
        | member hname ht => exact .member ((propertyName?_copy n).trans hname) ht
        | @within _ e hk he hnames =>
            refine .within ((is_copy n _).trans hk) ?_
              ((ih e (List.mem_of_mem_filter he)).2 hnames)
            rw [operands_copy]
            exact List.mem_map_of_mem he

theorem calls_copy : n.copy.Calls names ↔ n.Calls names := by
  unfold Calls
  rw [child?_copy]
  constructor
  · rintro ⟨g, hg, hnames⟩
    obtain ⟨c, hc, rfl⟩ := Option.map_eq_some_iff.1 hg
    exact ⟨c, hc, names_copy.1 hnames⟩
  · rintro ⟨g, hg, hnames⟩
    exact ⟨g.copy, by rw [hg, Option.map_some], names_copy.2 hnames⟩

/-- What had a number before a tree has been numbered was there. -/
theorem mem_walk_of_number {j : Nat} {y : Node} (hj : j < k)
    (hy : y ∈ (n.number k).1.walk) (hid : y.id = some j) :
    ∃ x ∈ n.walk, x.id = some j ∧ y.copy = x.copy := by
  induction n using Node.ind generalizing k with
  | h n ih =>
      rcases mem_walk_iff.1 hy with rfl | ⟨d, hd, hy⟩
      · refine ⟨n, self_mem_walk n, ?_, copy_number k n⟩
        rw [number_eq, ownNumber] at hid
        cases hn : n.id with
        | none =>
            rw [hn] at hid
            obtain rfl : k = j := Option.some.inj hid
            exact absurd hj (Nat.lt_irrefl k)
        | some i =>
            rw [hn] at hid
            exact hid
      · rw [number_eq] at hd
        obtain ⟨a, hd⟩ := List.getElem?_of_mem hd
        obtain ⟨x, k', hx, hk', rfl⟩ := getElem?_numberAll hd
        have hle : k ≤ (n.ownNumber k).2 := by
          unfold ownNumber
          cases n.id with
          | none => exact Nat.le_succ k
          | some i => exact Nat.le_refl k
        have hmem := List.mem_of_getElem? hx
        obtain ⟨z, hz, hzid, hcopy⟩ := ih x hmem (by omega) hy
        exact ⟨z, mem_walk_of_child hmem hz, hzid, hcopy⟩

/-- The node with the identity calls one of the methods. -/
def KeepsCall (names : List String) (j : Nat) (n : Node) : Prop :=
  n.id = some j → n.Calls names

variable {j : Nat}

theorem lenient_keepsCall : Lenient (KeepsCall names j) :=
  ⟨fun _ _ _ h => h, fun _ hid _ hj => by cases hid.symm.trans hj⟩

theorem keepsCall_substitute (ha : n.Apart i f) (h : n.KeepsCall names j) :
    (n.substitute i f).KeepsCall names j := by
  intro hid
  rw [substitute_eq] at hid
  exact (h hid).substitute ha

end Node

open Node

-- ============================================================ candidates

namespace Cursor

variable {c m : Cursor} {name : Text} {names : List String}

theorem node_child? {d : Cursor} {r : Role} (h : c.child? r = some d) :
    c.node.child? r = some d.node :=
  (map_node_child? c r).symm.trans (by rw [h, Option.map_some])

theorem names_of_unparenWithin (fuel : Nat) (h : (unparenWithin fuel c).node.Names names) :
    c.node.Names names := by
  induction fuel generalizing c with
  | zero => exact h
  | succ fuel ih =>
      rcases unparenWithin_cases (fuel + 1) c with hu | ⟨d, fuel', hk, hd, hf, hu⟩
      · rwa [hu] at h
      · obtain rfl : fuel = fuel' := by omega
        rw [hu] at h
        have hops : d.node ∈ c.node.operands := by
          rw [← map_node_operands, hd]
          exact List.mem_singleton.2 rfl
        exact .within hk hops (ih h)

/-- A candidate calls one of the methods. -/
theorem calls_of_isMethodCall (h : c.isMethodCall names = true) :
    c.node.Calls names := by
  unfold isMethodCall at h
  rw [Bool.and_eq_true] at h
  have hone := h.2
  split at hone
  · next m name hm =>
      simp only [Bool.and_eq_true] at hone
      obtain ⟨hinner, hname⟩ := calledMember?_eq_some hm
      obtain ⟨g, hg, rfl⟩ := inner?_eq_some.1 hinner
      exact ⟨g.node, node_child? hg,
        names_of_unparenWithin _ (.member hname hone.1.1)⟩
  · cases hone

theorem isOneOf_of_propertyName? (h : c.node.Names names)
    (hname : c.node.propertyName? = some name) : name.isOneOf names = true := by
  cases h with
  | member ht hone =>
      obtain rfl := Option.some.inj (ht.symm.trans hname)
      exact hone
  | within hk _ _ =>
      have hmember := (propertyName?_eq_some.1 hname).1
      rw [Node.is_false_of_kind (Node.is_iff.1 hk) (by decide)] at hmember
      cases hmember

theorem isOneOf_of_names (fuel : Nat) (h : c.node.Names names)
    (hname : (unparenWithin fuel c).node.propertyName? = some name) :
    name.isOneOf names = true := by
  induction fuel generalizing c with
  | zero => exact isOneOf_of_propertyName? h hname
  | succ fuel ih =>
      rcases unparenWithin_cases (fuel + 1) c with hu | ⟨d, fuel', hk, hd, hf, hu⟩
      · rw [hu] at hname
        exact isOneOf_of_propertyName? h hname
      · obtain rfl : fuel = fuel' := by omega
        rw [hu] at hname
        cases h with
        | member ht _ =>
            have hmember := (propertyName?_eq_some.1 ht).1
            rw [Node.is_false_of_kind (Node.is_iff.1 hk) (by decide)] at hmember
            cases hmember
        | @within _ e _ he hnames =>
            rw [← map_node_operands, hd, List.map_singleton, List.mem_singleton] at he
            subst he
            exact ih hnames hname

/-- What calls one of the methods calls it by one of the names. -/
theorem isOneOf_of_calls (h : c.node.Calls names)
    (hm : c.calledMember? = some (m, name)) : name.isOneOf names = true := by
  obtain ⟨hinner, hname⟩ := calledMember?_eq_some hm
  obtain ⟨g, hg, rfl⟩ := inner?_eq_some.1 hinner
  obtain ⟨g', hg', hnames⟩ := h
  obtain rfl := Option.some.inj ((node_child? hg).symm.trans hg')
  exact isOneOf_of_names _ hnames hname

end Cursor

namespace Step

variable {names : List Text} {methods : List String} {k : Symbol} {w : Workspace}
  {r : Rewrite} {p : Cursor} {i j : Nat}

/-- What is replaced is not the program. -/
theorem id_program_ne (h : Step names k w r p) (hi : r.site.node.id = some i) :
    w.program.id ≠ some i := by
  intro hid
  have heq := eq_of_id_eq h.sound.nodup (Node.self_mem_walk _)
    (Cursor.node_mem_walk h.mem) hid hi
  rcases Cursor.mem_walk_iff.1 h.mem with htop | ⟨e, he, hsite⟩
  · have hp := h.parent
    rw [htop] at hp
    cases hp
  · have hlt := size_lt_of_mem_children (node_mem_of_mem_children he)
    have hle := size_le_of_mem_walk (Cursor.node_mem_walk hsite)
    rw [← heq] at hle
    exact absurd (Nat.lt_of_le_of_lt hle hlt) (Nat.lt_irrefl _)

/-- Calls of methods that are still to come are such calls after a
rewrite. -/
theorem called_after (h : Step names k w r p) (hj : j < w.next)
    (hnew : r.site.node.Every (KeepsCall methods j) → r.new.Every (KeepsCall methods j))
    (hcalls : w.program.Every (KeepsCall methods j)) :
    (w.after r p).program.Every (KeepsCall methods j) := by
  have hmem := Cursor.node_mem_walk h.mem
  obtain ⟨i, hi⟩ := Option.isSome_iff_exists.1 (h.sound.isSome r.site.node hmem)
  have hprogram : (w.after r p).program = w.program.substitute i
      fun _ _ => (w.inserted p.node r.site.node r.new).1 := by
    unfold Workspace.after Workspace.splice
    rw [hi]
    rfl
  have hsame : ∀ d ∈ w.program.walk, d.id = some i → d = r.site.node := fun d hd hid =>
    eq_of_id_eq h.sound.nodup hd hmem hid hi
  have hapart : w.program.Apart i
      fun _ _ => (w.inserted p.node r.site.node r.new).1 := by
    refine ⟨fun d hd hid => ?_, fun _ d hd hid => ?_⟩
    · rw [hsame d hd hid]
      refine isOther_of_kind h.kind ?_
      have hplain : ∀ s ∈ siteSymbols,
          s ∉ [Symbol.memberExpression, .parenthesizedExpression, .propertyIdentifier] := by
        decide
      exact hplain k h.symbol
    · rw [hsame d hd hid]
      exact Workspace.role_number _ _
  rw [hprogram]
  refine every_substitute (h.id_program_ne hi) hcalls
    (fun m hm _ => keepsCall_substitute (hapart.of_mem_walk hm))
    fun _ _ _ _ y hy hid => ?_
  obtain ⟨x, hx, hxid, hcopy⟩ := mem_walk_of_number hj hy hid
  rw [← calls_copy, hcopy, calls_copy]
  exact lenient_keepsCall.every_fitted (hnew (hcalls.of_mem_walk hmem)) x hx hxid

end Step

namespace Sweep

variable {s : Sweep} {names : List String} {k : Symbol} {context : RuleContext}
  {w : Workspace}

/-- One rewrite by a sweep of a call of one of the methods that it looks
for, if it looks for methods. -/
inductive Calls (s : Sweep) (names : List String) (k : Symbol) (context : RuleContext) :
    Workspace → Workspace → Prop where
  | intro {w : Workspace} {r : Rewrite} {p : Cursor} :
    Step context.factoryNames k w r p →
    s.replacement context r.site = .ok (some r.new) →
    (names ≠ [] → r.site.node.Calls names) → Calls s names k context w (w.after r p)

/-- A run of a sweep rewrites the calls that it looks for. -/
theorem run_calls {P : RuleContext → Cursor → Node → Prop} (hs : s.Keeps k)
    (hk : k ∈ siteSymbols) (hwrites : s.Writes names P)
    (hP : names ≠ [] → ∀ c new j, c.Stands → P context c new →
      c.node.Every (KeepsCall names j) → new.Every (KeepsCall names j))
    (hw : w.Sound) : RunSpec (s.Calls names k context) false w (s.run context w).1
      (s.run context w).2 := by
  refine visit_run (I := fun is w => w.Sound ∧ w.AllOfKind k is
    ∧ (names ≠ [] → ∀ j ∈ is, w.program.Every (KeepsCall names j))) ?_ ?_
    ⟨hw, allOfKind_candidates hs hw, fun hne j hj m hm hid => ?_⟩
  · exact fun i is w h => ⟨h.1, fun j hj => h.2.1 j (List.mem_cons_of_mem _ hj),
      fun hne j hj => h.2.2 hne j (List.mem_cons_of_mem _ hj)⟩
  · intro i is w c new p h hc hnew hp
    have hstep := step_of_findInProgram? hs hk h.1 h.2.1 hc hnew hp
    obtain ⟨hmem, hid⟩ := Workspace.findInProgram?_eq_some hc
    have hform := hwrites.written context c new hstep.unparen_site hnew
    refine ⟨.intro hstep hnew fun hne => ?_, hstep.sound_after.1,
      hstep.allOfKind_after fun j hj => h.2.1 j (List.mem_cons_of_mem _ hj),
      fun hne j hj => ?_⟩
    · exact h.2.2 hne i List.mem_cons_self c.node (Cursor.node_mem_walk hmem) hid
    · have hj := List.mem_cons_of_mem i hj
      exact hstep.called_after (h.2.1 j hj).1
        (hP hne c new j (h.1.stands hmem) hform) (h.2.2 hne j hj)
  · obtain ⟨c, hc, hcid⟩ := List.mem_filterMap.1 hj
    obtain ⟨hmem, hcand⟩ := List.mem_filter.1 hc
    rw [eq_of_id_eq hw.nodup hm (Cursor.node_mem_walk hmem) hid hcid]
    exact calls_of_isMethodCall (hwrites.named hne c hcand)

end Sweep

end Codemod
