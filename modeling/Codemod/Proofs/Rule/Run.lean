/-
Runs of sweeps.

A sweep turns a workspace into the next by one rewrite (`Sweep.Turns`),
and a run of sweeps is a sequence of such turns. It reports a change just
when there has been a turn (`runSweeps_spec`), so what a turn preserves a
rule preserves, and what a turn always changes a rule changes when it
says so.
-/
import Mathlib.Logic.Relation
import Codemod.Proofs.Effect.Conservation

namespace Codemod

open Relation

/-- One rewrite by a sweep, of an expression of one kind. -/
inductive Sweep.Turns (s : Sweep) (k : Symbol) (context : RuleContext) :
    Workspace → Workspace → Prop where
  | intro {w : Workspace} {r : Rewrite} {p : Cursor} :
    Step context.factoryNames k w r p →
    s.replacement context r.site = .ok (some r.new) →
    Turns s k context w (w.after r p)

/-- What is replaced is not a pair of parentheses. -/
theorem Step.unparen_site {names : List Text} {k : Symbol} {w : Workspace}
    {r : Rewrite} {p : Cursor} (h : Step names k w r p) :
    r.site.unparen = r.site := by
  have hk : r.site.node.kind = .symbol k := by
    simpa [Cursor.is, Node.is] using h.kind
  have hne : ∀ s ∈ siteSymbols, s ≠ .parenthesizedExpression := by decide
  have hparen : r.site.is .parenthesizedExpression = false := by
    rw [Cursor.is, Node.is, hk]
    simpa using hne k h.symbol
  exact Cursor.unparen_of_not_parens hparen

/-- One rewrite by one of the sweeps. -/
def SweepsTurn (sweeps : List Sweep) (k : Symbol) (context : RuleContext)
    (w w' : Workspace) : Prop :=
  ∃ s ∈ sweeps, s.Turns k context w w'

/-- A run has left `w'`: a change has been reported just when there has
been a turn, or one had been before. -/
structure RunSpec (turns : Workspace → Workspace → Prop) (changed : Bool)
    (w w' : Workspace) (result : Except Fault Bool) : Prop where
  reached : ReflTransGen turns w w'
  told : ∀ b, result = .ok b →
    (b = changed ∧ w' = w) ∨ (b = true ∧ TransGen turns w w')

namespace RunSpec

variable {turns turns' : Workspace → Workspace → Prop} {changed : Bool}
  {w v w' : Workspace} {result : Except Fault Bool}

theorem idle : RunSpec turns changed w w (.ok changed) :=
  ⟨.refl, fun _ hb => Or.inl ⟨(Except.ok.inj hb).symm, rfl⟩⟩

theorem failed {f : Fault} (h : ReflTransGen turns w w') :
    RunSpec turns changed w w' (.error f) :=
  ⟨h, fun _ hb => by cases hb⟩

/-- A turn, and what follows it. -/
theorem turn (h : turns w v) (h' : RunSpec turns true v w' result) :
    RunSpec turns changed w w' result := by
  refine ⟨.head h h'.reached, fun b hb => Or.inr ?_⟩
  rcases h'.told b hb with ⟨rfl, rfl⟩ | ⟨rfl, ht⟩
  · exact ⟨rfl, .single h⟩
  · exact ⟨rfl, .head h ht⟩

theorem mono (hle : ∀ w w', turns w w' → turns' w w')
    (h : RunSpec turns changed w w' result) :
    RunSpec turns' changed w w' result := by
  refine ⟨ReflTransGen.mono hle _ _ h.reached, fun b hb => ?_⟩
  exact (h.told b hb).imp_right fun h => ⟨h.1, TransGen.mono hle _ _ h.2⟩

/-- A run, and another from where it has got. -/
theorem append {b : Bool} (h : RunSpec turns false w v (.ok b))
    (h' : RunSpec turns (changed || b) v w' result) :
    RunSpec turns changed w w' result := by
  refine ⟨h.reached.trans h'.reached, fun b' hb' => ?_⟩
  rcases h.told b rfl with ⟨rfl, rfl⟩ | ⟨rfl, ht⟩
  · rw [Bool.or_false] at h'
    exact h'.told b' hb'
  · rw [Bool.or_true] at h'
    rcases h'.told b' hb' with ⟨rfl, rfl⟩ | ⟨rfl, ht'⟩
    · exact Or.inr ⟨rfl, ht⟩
    · exact Or.inr ⟨rfl, ht.trans ht'⟩

/-- Where no turn is possible nothing changes. -/
theorem still (h : RunSpec turns false w w' result)
    (hno : ∀ v, ¬ turns w v) : w' = w ∧ result ≠ .ok true := by
  have hw : w' = w := by
    rcases ReflTransGen.cases_head h.reached with h | ⟨v, hv, -⟩
    · exact h.symm
    · exact absurd hv (hno v)
  refine ⟨hw, fun hb => ?_⟩
  rcases h.told true hb with ⟨hb, -⟩ | ⟨-, ht⟩
  · cases hb
  · obtain ⟨v, hv, -⟩ := TransGen.head'_iff.1 ht
    exact hno v hv

end RunSpec

namespace Sweep

variable {s : Sweep} {k : Symbol} {context : RuleContext} {w : Workspace}

/-- A visit preserves what each rewrite and each candidate that is passed
over preserves of what is still to come. -/
theorem visit_run {turns : Workspace → Workspace → Prop}
    {I : List Nat → Workspace → Prop} (hskip : ∀ i is w, I (i :: is) w → I is w)
    (hturn : ∀ i is w c new p, I (i :: is) w → w.findInProgram? i = some c →
      s.replacement context c = .ok (some new) → c.parent? = some p →
      turns w (w.splice p.node c.node new) ∧ I is (w.splice p.node c.node new))
    {is : List Nat} {changed : Bool} (h : I is w) :
    RunSpec turns changed w (s.visit context is changed w).1
      (s.visit context is changed w).2 := by
  induction is generalizing w changed with
  | nil => exact .idle
  | cons i is ih =>
      have hrest := hskip i is w h
      rw [visit]
      cases hc : w.findInProgram? i with
      | none => exact ih hrest
      | some c =>
          simp only
          cases hnew : s.replacement context c with
          | error e => exact .failed .refl
          | ok answer =>
              cases answer with
              | none => exact ih hrest
              | some new =>
                  cases hp : c.parent? with
                  | none => exact .failed .refl
                  | some p =>
                      obtain ⟨ht, hI⟩ := hturn i is w c new p h hc hnew hp
                      exact .turn ht (ih hI)

/-- What is found for a candidate that is still to come, and replaced. -/
theorem step_of_findInProgram? (hs : s.Keeps k) (hk : k ∈ siteSymbols) {i : Nat}
    {is : List Nat} {c p : Cursor} {new : Node} (hw : w.Sound)
    (hall : w.AllOfKind k (i :: is)) (hc : w.findInProgram? i = some c)
    (hnew : s.replacement context c = .ok (some new)) (hp : c.parent? = some p) :
    Step context.factoryNames k w ⟨c, new⟩ p := by
  obtain ⟨hmem, hid⟩ := Workspace.findInProgram?_eq_some hc
  have hck : c.is k = true :=
    (hall i List.mem_cons_self).2 c.node (Cursor.node_mem_walk hmem) hid
  exact ⟨hw, hmem, hp, hck, hk, hs.kept context c new (hw.stands hmem) hck hnew⟩

theorem visit_spec (hs : s.Keeps k) (hk : k ∈ siteSymbols) {is : List Nat}
    {changed : Bool} (hw : w.Sound) (hall : w.AllOfKind k is) :
    RunSpec (s.Turns k context) changed w (s.visit context is changed w).1
      (s.visit context is changed w).2 := by
  refine visit_run (I := fun is w => w.Sound ∧ w.AllOfKind k is) ?_ ?_ ⟨hw, hall⟩
  · exact fun i is w h => ⟨h.1, fun j hj => h.2 j (List.mem_cons_of_mem _ hj)⟩
  · intro i is w c new p h hc hnew hp
    have hstep := step_of_findInProgram? hs hk h.1 h.2 hc hnew hp
    exact ⟨.intro hstep hnew, hstep.sound_after.1, hstep.allOfKind_after
      fun j hj => h.2 j (List.mem_cons_of_mem _ hj)⟩

theorem Turns.sound {w' : Workspace} (h : s.Turns k context w w') : w'.Sound := by
  cases h with
  | intro hstep _ => exact hstep.sound_after.1

theorem sound_of_turns {w' : Workspace} (hw : w.Sound)
    (h : ReflTransGen (s.Turns k context) w w') : w'.Sound := by
  cases h with
  | refl => exact hw
  | tail _ h => exact h.sound

end Sweep

/-- Runs of sweeps do what each of them does. -/
theorem runSweeps_run {sweeps : List Sweep} {context : RuleContext} {w : Workspace}
    {turns : Workspace → Workspace → Prop} {changed : Bool}
    (hsound : ∀ w w', turns w w' → w'.Sound)
    (hs : ∀ s ∈ sweeps, ∀ w, w.Sound →
      RunSpec turns false w (s.run context w).1 (s.run context w).2) (hw : w.Sound) :
    RunSpec turns changed w (runSweeps context sweeps changed w).1
      (runSweeps context sweeps changed w).2 := by
  induction sweeps generalizing w changed with
  | nil => exact .idle
  | cons s rest ih =>
      rw [List.forall_mem_cons] at hs
      have hrun := hs.1 w hw
      have hafter : (s.run context w).1.Sound := by
        rcases ReflTransGen.cases_tail hrun.reached with heq | ⟨v, -, ht⟩
        · rw [heq]
          exact hw
        · exact hsound _ _ ht
      rw [runSweeps]
      cases hr : s.run context w with
      | mk w' result =>
          rw [hr] at hrun hafter
          cases result with
          | ok b => exact hrun.append (ih hs.2 hafter)
          | error f => exact .failed hrun.reached

/-- What runs of sweeps do. -/
theorem runSweeps_spec {sweeps : List Sweep} {k : Symbol} {context : RuleContext}
    {w : Workspace} {changed : Bool} (hk : k ∈ siteSymbols)
    (hs : ∀ s ∈ sweeps, s.Keeps k) (hw : w.Sound) :
    RunSpec (SweepsTurn sweeps k context) changed w
      (runSweeps context sweeps changed w).1
      (runSweeps context sweeps changed w).2 := by
  refine runSweeps_run (fun _ _ ⟨_, _, h⟩ => h.sound) (fun s hmem w hw => ?_) hw
  exact (Sweep.visit_spec (hs s hmem) hk hw
    (Sweep.allOfKind_candidates (hs s hmem) hw)).mono fun _ _ h => ⟨s, hmem, h⟩

/-- What a rule does that works by sweeps. -/
theorem Rule.apply_spec {rule : Rule} {sweeps : List Sweep} {k : Symbol}
    {context : RuleContext} {w : Workspace}
    (haction : rule.action = .sweeps sweeps) (hk : k ∈ siteSymbols)
    (hs : ∀ s ∈ sweeps, s.Keeps k) (hw : w.Sound) :
    RunSpec (SweepsTurn sweeps k context) false w (rule.apply context w).1
      (rule.apply context w).2 := by
  rw [Rule.apply, haction]
  exact runSweeps_spec hk hs hw

-- ==================================================== rewrites of a rule

theorem Sweep.replacement_of_mem_rewrites {s : Sweep} {context : RuleContext}
    {is : List Nat} {w : Workspace} {r : Rewrite}
    (h : r ∈ s.rewritesOver context is w) :
    s.replacement context r.site = .ok (some r.new) := by
  induction is generalizing w with
  | nil => cases h
  | cons i is ih =>
      rw [rewritesOver] at h
      split at h
      · exact ih h
      · next c _ =>
          split at h
          · cases h
          · exact ih h
          · next new hnew =>
              split at h
              · cases h
              · rcases List.mem_cons.1 h with rfl | h
                · exact hnew
                · exact ih h

theorem replacement_of_mem_rewritesOfSweeps {sweeps : List Sweep}
    {context : RuleContext} {w : Workspace} {r : Rewrite}
    (h : r ∈ rewritesOfSweeps context sweeps w) :
    ∃ s ∈ sweeps, s.replacement context r.site = .ok (some r.new) := by
  induction sweeps generalizing w with
  | nil => cases h
  | cons s rest ih =>
      rw [rewritesOfSweeps] at h
      rcases List.mem_append.1 h with h | h
      · exact ⟨s, List.mem_cons_self, Sweep.replacement_of_mem_rewrites h⟩
      · split at h
        · obtain ⟨t, ht, hr⟩ := ih h
          exact ⟨t, List.mem_cons_of_mem _ ht, hr⟩
        · cases h

/-- Every rewrite of a course is a step in some workspace, which has what
the first one has and each step keeps. -/
theorem Course.exists_step {names : List Text} {k : Symbol} {w w' : Workspace}
    {rs : List Rewrite} {r : Rewrite} {P : Workspace → Prop}
    (hP : ∀ {v r p}, Step names k v r p → P v → P (v.after r p))
    (h : Course names k w rs w') (hw : P w) (hr : r ∈ rs) :
    ∃ v p, Step names k v r p ∧ P v := by
  induction h with
  | done _ => cases hr
  | step hs _ ih =>
      rcases List.mem_cons.1 hr with rfl | hr
      · exact ⟨_, _, hs, hw⟩
      · exact ih (hP hs hw) hr

/-- A step below the top leaves the top what it is. -/
theorem Step.kind_program_after {names : List Text} {k : Symbol} {w : Workspace}
    {r : Rewrite} {p : Cursor} (h : Step names k w r p) :
    (w.after r p).program.kind = w.program.kind := by
  have hroot := Workspace.rootIn_eq h.mem
  have hparent := h.parent
  rw [h.program_after]
  obtain ⟨⟨n, above⟩, new⟩ := r
  cases above with
  | nil => cases hparent
  | cons pi up =>
      obtain ⟨q, i⟩ := pi
      rw [← hroot]
      show (Cursor.plug up _).kind = (Cursor.rootIn q up).kind
      exact Cursor.kind_plug rfl

/-- The rewrites of a built-in rule are a course. -/
theorem Rule.course_rewrites {rule : Rule} (h : rule ∈ Registry.builtin.rules)
    (context : RuleContext) {w : Workspace} (hw : w.Sound) :
    ∃ k w', Course context.factoryNames k w (rule.rewrites context w) w' := by
  rcases Rule.keeps_of_mem h with ⟨k, hk, sweeps, haction, hkeeps⟩ | rfl
  · refine ⟨k, (runSweeps context sweeps false w).1, ?_⟩
    rw [Rule.rewrites, haction]
    exact Sweep.course_runSweeps hk hkeeps hw
  · exact ⟨.callExpression, w, .done hw⟩

/-- Each rewrite of a built-in rule is what one of its sweeps makes in some
workspace, in a program of the same kind. -/
theorem Rule.exists_step_of_mem_rewrites {rule : Rule} (h : rule ∈ Registry.builtin.rules)
    {context : RuleContext} {w : Workspace} (hw : w.Sound) {r : Rewrite}
    (hr : r ∈ rule.rewrites context w) :
    ∃ sweeps, rule.action = .sweeps sweeps
      ∧ ∃ s ∈ sweeps, s.replacement context r.site = .ok (some r.new)
      ∧ ∃ k v p, Step context.factoryNames k v r p ∧ v.program.kind = w.program.kind := by
  obtain ⟨k, w', hcourse⟩ := Rule.course_rewrites h context hw
  obtain ⟨v, p, hstep, hkind⟩ := hcourse.exists_step
    (P := fun v => v.program.kind = w.program.kind)
    (fun hs hv => hs.kind_program_after.trans hv) rfl hr
  unfold Rule.rewrites at hr
  split at hr
  · next sweeps haction =>
      obtain ⟨s, hs, hnew⟩ := replacement_of_mem_rewritesOfSweeps hr
      exact ⟨sweeps, haction, s, hs, hnew, k, v, p, hstep, hkind⟩
  · cases hr

/-- The first rewrite of a built-in rule is made in the program as it
stands. -/
theorem Rule.site_mem_of_head?_rewrites {rule : Rule} (h : rule ∈ Registry.builtin.rules)
    {context : RuleContext} {w : Workspace} (hw : w.Sound) {r : Rewrite}
    (hr : (rule.rewrites context w).head? = some r) :
    r.site ∈ (Cursor.top w.program).walk := by
  obtain ⟨rs, hrs⟩ := List.head?_eq_some_iff.1 hr
  obtain ⟨k, w', hcourse⟩ := Rule.course_rewrites h context hw
  rw [hrs] at hcourse
  cases hcourse with
  | step hstep _ => exact hstep.mem

end Codemod
