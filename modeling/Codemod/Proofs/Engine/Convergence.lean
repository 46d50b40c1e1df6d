/-
Runs of the engine.

A run is a sequence of passes that stops at the first text a pass leaves
as it is (`Settled`), or when no pass is left. What a run makes of a text
does not depend on how the text came about: passes made before only show
in the report (`runFrom_eq_map`), and passes left over are made from
where the others stopped (`runFrom_add`).

Main statement: `run_settles_or_continues`. A converged result is left
alone by any further run, and a run that was cut off is continued by a
run on its result.
-/
import Mathlib.Data.List.Nodup
import Codemod.Engine

namespace Codemod.Engine

-- ====================================================== collecting names

section Names

variable {known names : List String}

theorem addNames_nil : addNames known [] = known := rfl

theorem addNames_cons (s : String) : addNames known (s :: names)
    = addNames (if known.contains s then known else known ++ [s]) names := rfl

theorem addNames_append (more : List String) :
    addNames known (names ++ more) = addNames (addNames known names) more :=
  List.foldl_append

theorem mem_addNames {x : String} :
    x ∈ addNames known names ↔ x ∈ known ∨ x ∈ names := by
  induction names generalizing known with
  | nil => simp [addNames_nil]
  | cons s names ih =>
      rw [addNames_cons, ih, List.mem_cons]
      split
      · next hs =>
          rw [List.contains_iff_mem] at hs
          constructor
          · rintro (h | h)
            · exact Or.inl h
            · exact Or.inr (Or.inr h)
          · rintro (h | rfl | h)
            · exact Or.inl h
            · exact Or.inl hs
            · exact Or.inr h
      · rw [List.mem_append, List.mem_singleton, or_assoc]

/-- Names may be collected in portions. -/
theorem addNames_addNames (more : List String) :
    addNames known (addNames names more) = addNames (addNames known names) more := by
  induction more generalizing names with
  | nil => rfl
  | cons s more ih =>
      rw [addNames_cons, addNames_cons, ih]
      congr 1
      by_cases hs : s ∈ names
      · have hk : s ∈ addNames known names := mem_addNames.2 (Or.inr hs)
        rw [if_pos (List.contains_iff_mem.2 hs), if_pos (List.contains_iff_mem.2 hk)]
      · rw [if_neg (mt List.contains_iff_mem.1 hs), addNames_append, addNames_cons,
          addNames_nil]

theorem nodup_addNames (h : known.Nodup) : (addNames known names).Nodup := by
  induction names generalizing known with
  | nil => exact h
  | cons s names ih =>
      rw [addNames_cons]
      split
      · exact ih h
      · next hs =>
          refine ih (List.nodup_append.2 ⟨h, List.nodup_singleton s, ?_⟩)
          rintro a ha b hb rfl
          rw [List.mem_singleton] at hb
          exact hs (List.contains_iff_mem.2 (hb ▸ ha))

/-- Names without repetitions are added at the end, but for those that
are there already. -/
theorem addNames_eq_append (h : names.Nodup) :
    addNames known names = known ++ names.filter (!known.contains ·) := by
  induction names generalizing known with
  | nil => simp [addNames_nil]
  | cons s names ih =>
      obtain ⟨hs, hn⟩ := List.nodup_cons.1 h
      rw [addNames_cons, ih hn]
      by_cases hk : known.contains s = true
      · rw [if_pos hk, List.filter_cons_of_neg (by simpa using hk)]
      · rw [if_neg hk, List.filter_cons_of_pos (by simpa using hk), List.append_assoc]
        refine congrArg (known ++ s :: ·) (List.filter_congr fun x hx => ?_)
        have hxs : x ≠ s := fun he => hs (he ▸ hx)
        simp [hxs]

end Names

-- ================================================================ passes

variable {e : Engine} {start current : Text}

/-- The engine with another number of passes. -/
def withPasses (e : Engine) (n : Nat) : Engine := { e with maxPasses := n }

/-- A pass leaves the text as it is. -/
def Settled (e : Engine) (t : Text) : Prop :=
  ∃ next names, e.runPass t = .ok (next, names)
    ∧ (names.isEmpty || next == t) = true

/-- A result seen from an earlier text, after `passes` passes that have
applied rules. -/
def resumed (start : Text) (passes : Nat) (applied : List String)
    (r : TransformResult) : TransformResult :=
  ⟨r.code, r.code != start, addNames applied r.appliedRules, passes + r.passes,
    r.converged⟩

theorem resumed_resumed (first : Text) (p q : Nat) (a b : List String)
    (r : TransformResult) : resumed first p a (resumed start q b r)
      = resumed first (p + q) (addNames a b) r := by
  simp [resumed, addNames_addNames, Nat.add_assoc]

/-- What one more pass can do. -/
theorem runFrom_succ (left passes : Nat) (applied : List String) :
    e.runFrom start (left + 1) passes current applied
      = (e.runPass current).bind fun (next, names) =>
          if names.isEmpty || next == current then
            .ok ⟨current, current != start, addNames applied names, passes + 1, true⟩
          else e.runFrom start left (passes + 1) next (addNames applied names) := by
  rw [runFrom]
  cases e.runPass current <;> rfl

/-- Passes made before show in the report alone. -/
theorem runFrom_eq_map (left passes : Nat) (applied : List String) :
    e.runFrom start left passes current applied
      = (e.runFrom current left 0 current []).map (resumed start passes applied) := by
  induction left generalizing start current passes applied with
  | zero => rfl
  | succ left ih =>
      rw [runFrom_succ, runFrom_succ]
      cases e.runPass current with
      | error f => rfl
      | ok made =>
          obtain ⟨next, names⟩ := made
          simp only [Except.bind]
          split
          · simp [Except.map, resumed, addNames_addNames, addNames_nil]
          · rw [ih, ih (0 + 1)]
            cases e.runFrom next left 0 next [] with
            | error f => rfl
            | ok r =>
                simp [Except.map, resumed_resumed, addNames_addNames, addNames_nil]

/-- What has happened in a run that was allowed a pass. -/
theorem runFrom_cases {left passes : Nat} {applied : List String}
    {r : TransformResult}
    (h : e.runFrom start (left + 1) passes current applied = .ok r) :
    ∃ next names, e.runPass current = .ok (next, names)
      ∧ ((names.isEmpty || next == current) = true
            ∧ r = ⟨current, current != start, addNames applied names, passes + 1, true⟩
          ∨ (names.isEmpty || next == current) = false
            ∧ e.runFrom start left (passes + 1) next (addNames applied names)
              = .ok r) := by
  rw [runFrom_succ] at h
  cases hp : e.runPass current with
  | error f =>
      rw [hp] at h
      cases h
  | ok made =>
      obtain ⟨next, names⟩ := made
      rw [hp] at h
      simp only [Except.bind] at h
      refine ⟨next, names, rfl, ?_⟩
      split at h
      · next hs => exact Or.inl ⟨hs, (Except.ok.inj h).symm⟩
      · next hs => exact Or.inr ⟨Bool.eq_false_iff.2 hs, h⟩

/-- A run that is cut off has made all its passes. -/
theorem passes_of_runFrom {left passes : Nat} {applied : List String}
    {r : TransformResult} (h : e.runFrom start left passes current applied = .ok r)
    (hr : r.converged = false) : r.passes = passes + left := by
  induction left generalizing passes current applied with
  | zero =>
      obtain rfl := Except.ok.inj h
      rfl
  | succ left ih =>
      obtain ⟨next, names, -, ⟨-, rfl⟩ | ⟨-, h⟩⟩ := runFrom_cases h
      · cases hr
      · rw [ih h, Nat.add_right_comm, Nat.add_assoc]

/-- The names a run reports are collected without repetitions. -/
theorem nodup_appliedRules_of_runFrom {left passes : Nat} {applied : List String}
    {r : TransformResult} (h : e.runFrom start left passes current applied = .ok r)
    (ha : applied.Nodup) : r.appliedRules.Nodup := by
  induction left generalizing passes current applied with
  | zero =>
      obtain rfl := Except.ok.inj h
      exact ha
  | succ left ih =>
      obtain ⟨next, names, -, ⟨-, rfl⟩ | ⟨-, h⟩⟩ := runFrom_cases h
      · exact nodup_addNames ha
      · exact ih h (nodup_addNames ha)

/-- The last pass of a converged run left the text as it is. -/
theorem settled_of_runFrom {left passes : Nat} {applied : List String}
    {r : TransformResult} (h : e.runFrom start left passes current applied = .ok r)
    (hr : r.converged = true) : e.Settled r.code := by
  induction left generalizing passes current applied with
  | zero =>
      obtain rfl := Except.ok.inj h
      cases hr
  | succ left ih =>
      obtain ⟨next, names, hp, ⟨hs, rfl⟩ | ⟨-, h⟩⟩ := runFrom_cases h
      · exact ⟨next, names, hp, hs⟩
      · exact ih h

/-- Passes left over are made from where the others stopped. -/
theorem runFrom_add {m n passes : Nat} {applied : List String}
    {r : TransformResult} (h : e.runFrom start m passes current applied = .ok r)
    (hr : r.converged = false) : e.runFrom start (m + n) passes current applied
      = e.runFrom start n r.passes r.code r.appliedRules := by
  induction m generalizing passes current applied with
  | zero =>
      obtain rfl := Except.ok.inj h
      rw [Nat.zero_add]
  | succ m ih =>
      obtain ⟨next, names, hp, ⟨-, rfl⟩ | ⟨hs, h⟩⟩ := runFrom_cases h
      · cases hr
      · rw [Nat.add_right_comm, runFrom_succ, hp, ← ih h]
        simp only [Except.bind, hs, Bool.false_eq_true, if_false]

-- ================================================================= runs

theorem run_withPasses (n : Nat) (t : Text) :
    (e.withPasses n).run t = e.runFrom t n 0 t [] := by
  have h : ∀ left passes current applied,
      (e.withPasses n).runFrom t left passes current applied
        = e.runFrom t left passes current applied := by
    intro left
    induction left with
    | zero => intros; rfl
    | succ left ih =>
        intro passes current applied
        rw [runFrom_succ, runFrom_succ]
        simp only [ih]
        rfl
  exact h n 0 t []

/-- A run on a text that a pass leaves alone returns it after one pass. -/
theorem run_of_settled {t : Text} {n : Nat} (h : e.Settled t) (hn : 0 < n) :
    ∃ names, (e.withPasses n).run t = .ok ⟨t, false, names, 1, true⟩ := by
  obtain ⟨next, names, hp, hs⟩ := h
  obtain ⟨k, rfl⟩ := Nat.exists_eq_succ_of_ne_zero (Nat.ne_of_gt hn)
  refine ⟨addNames [] names, ?_⟩
  rw [run_withPasses, runFrom_succ, hp]
  simp [Except.bind, hs]

/-- A run that was cut off is continued by a run on its result. -/
theorem run_add {source : Text} {m n : Nat} {r : TransformResult}
    (h : (e.withPasses m).run source = .ok r) (hr : r.converged = false) :
    (e.withPasses (m + n)).run source
      = ((e.withPasses n).run r.code).map (resumed source m r.appliedRules) := by
  rw [run_withPasses] at h ⊢
  rw [run_withPasses, runFrom_add h hr, runFrom_eq_map, passes_of_runFrom h hr,
    Nat.zero_add]

/-- A converged result is left alone by every further run. The result of
a run that was cut off after `m` passes is what a run of `m + n` passes
goes on from: it ends where a run of `n` passes on that result ends, or
fails as that run fails. -/
theorem run_settles_or_continues (e : Engine) (source : Text) {m n : Nat}
    (hn : 1 ≤ n) {r : TransformResult}
    (h : (e.withPasses m).run source = .ok r) :
    (r.converged = true → ∃ names,
        (e.withPasses n).run r.code = .ok ⟨r.code, false, names, 1, true⟩)
      ∧ (r.converged = false →
        (∀ f, (e.withPasses (m + n)).run source = .error f
          ↔ (e.withPasses n).run r.code = .error f)
        ∧ ∀ s, (e.withPasses n).run r.code = .ok s →
          (e.withPasses (m + n)).run source = .ok
            ⟨s.code, s.code != source,
              r.appliedRules ++ s.appliedRules.filter (!r.appliedRules.contains ·),
              m + s.passes, s.converged⟩) := by
  constructor
  · intro hr
    rw [run_withPasses] at h
    exact run_of_settled (settled_of_runFrom h hr) hn
  · intro hr
    rw [run_add h hr]
    constructor
    · intro f
      cases (e.withPasses n).run r.code with
      | error g => simp [Except.map]
      | ok s => simp [Except.map]
    · intro s hs
      have hnodup : s.appliedRules.Nodup := by
        rw [run_withPasses] at hs
        exact nodup_appliedRules_of_runFrom hs List.nodup_nil
      rw [hs, Except.map, resumed, addNames_eq_append hnodup]

/-- A power is written with its operator in a pass that changes the text,
so that the pass after it has to find the fixed point. -/
theorem run_power_settles_or_continues :
    let e : Engine := ⟨[Rules.power], .default, 1⟩
    let source := Text.ofString "Math.pow(a, 2)"
    ∃ r s, (e.withPasses 1).run source = .ok r ∧ r.converged = false
      ∧ (e.withPasses 1).run r.code = .ok s ∧ s.converged = true
      ∧ (e.withPasses 2).run source = .ok
        ⟨s.code, s.code != source,
          r.appliedRules ++ s.appliedRules.filter (!r.appliedRules.contains ·),
          1 + s.passes, s.converged⟩
      ∧ ∃ names, (e.withPasses 5).run s.code = .ok ⟨s.code, false, names, 1, true⟩ := by
  intro e source
  have htest : (((e.withPasses 1).run source).toOption.any fun r =>
      !r.converged && ((e.withPasses 1).run r.code).toOption.any (·.converged))
        = true := by decide +kernel
  clear_value e source
  cases hr : (e.withPasses 1).run source with
  | error f =>
      rw [hr] at htest
      cases htest
  | ok r =>
      cases hs : (e.withPasses 1).run r.code with
      | error f =>
          simp [hr, hs, Except.toOption] at htest
      | ok s =>
          simp only [hr, hs, Except.toOption, Option.any_some, Bool.and_eq_true,
            Bool.not_eq_true'] at htest
          exact ⟨r, s, rfl, htest.1, hs, htest.2,
            ((run_settles_or_continues e source (by decide) hr).2 htest.1).2 s hs,
            (run_settles_or_continues e r.code (by decide) hs).1 htest.2⟩

end Codemod.Engine
