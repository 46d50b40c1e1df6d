/-
What settings are good for.

The engine that settings describe runs built-in rules only and makes at
least one pass (`Settings.engine_spec`). So a transformation that has
converged is left alone by the next (`Settings.transform_code`), and none
puts a carriage return into a text (`Settings.isUnified_of_transform`).
A configuration that has been checked says how many files are processed
at a time (`Config.usesPool_of_checked`).
-/
import Codemod.Batch.Run
import Codemod.Proofs.Config.Section
import Codemod.Proofs.Rule.Unified

namespace Codemod

namespace Settings

variable {s : Settings} {e : Engine} {rules : List Rule} {t : Text}
  {r : TransformResult}

theorem mem_builtin_of_select {groups : Option (List String)} {disabled : List String}
    (h : Registry.builtin.select groups disabled = .ok rules) :
    ∀ rule ∈ rules, rule ∈ Registry.builtin.rules := by
  unfold Registry.select at h
  obtain ⟨_, -, h⟩ := bind_eq_ok.1 h
  split at h
  · obtain rfl := pure_eq_ok.1 h
    exact fun _ hr => List.mem_of_mem_filter hr
  · simp only at h
    split at h
    · cases h
    · obtain rfl := pure_eq_ok.1 h
      exact fun _ hr => List.mem_of_mem_filter hr

theorem mem_builtin_of_enabledRules (h : s.enabledRules = .ok rules) :
    ∀ rule ∈ rules, rule ∈ Registry.builtin.rules := by
  unfold enabledRules at h
  obtain ⟨groups, -, h⟩ := bind_eq_ok.1 h
  obtain ⟨slot, -, h⟩ := bind_eq_ok.1 h
  obtain ⟨disabled, -, h⟩ := bind_eq_ok.1 h
  simp only at h
  split at h
  · exact mem_builtin_of_select h
  · obtain ⟨_, -, h⟩ := bind_eq_ok.1 h
    obtain ⟨vs, -, h⟩ := bind_eq_ok.1 h
    split at h
    · exact mem_builtin_of_select h
    · cases h

/-- The engine of settings runs built-in rules, at least once. -/
theorem engine_spec (h : s.engine = .ok e) :
    (∀ rule ∈ e.rules, rule ∈ Registry.builtin.rules) ∧ 0 < e.maxPasses := by
  unfold engine at h
  obtain ⟨⟨rules, context⟩, hsel, h⟩ := bind_eq_ok.1 h
  have hrules : ∀ rule ∈ rules, rule ∈ Registry.builtin.rules := by
    unfold selection at hsel
    obtain ⟨enabled, henabled, hsel⟩ := bind_eq_ok.1 hsel
    obtain ⟨_, -, hsel⟩ := bind_eq_ok.1 hsel
    split at hsel
    · cases hsel
    · split at hsel
      · cases hsel
      · obtain ⟨rfl, -⟩ := Prod.mk.inj (pure_eq_ok.1 hsel)
        exact mem_builtin_of_enabledRules henabled
  simp only at h
  split at h
  · next n _ =>
      unfold Engine.make at h
      split at h
      · cases h
      · next hn =>
          obtain rfl := Except.ok.inj h
          exact ⟨hrules, by simp only; omega⟩
  · cases h

theorem transform_eq_ok : s.transform t = .ok r
    ↔ ∃ e, s.engine = .ok e ∧ e.run t = .ok r := bind_eq_ok

/-- What has converged is transformed into itself. -/
theorem transform_code (h : s.transform t = .ok r) (hr : r.converged = true) :
    ∃ again, s.transform r.code = .ok again ∧ again.modified = false := by
  obtain ⟨e, he, h⟩ := transform_eq_ok.1 h
  obtain ⟨names, hagain⟩ :=
    Engine.run_of_settled (Engine.settled_of_runFrom h hr) (engine_spec he).2
  exact ⟨_, transform_eq_ok.2 ⟨e, he, hagain⟩, rfl⟩

/-- A text without carriage returns is transformed into one. -/
theorem isUnified_of_transform (h : s.transform t = .ok r) (ht : t.IsUnified) :
    r.code.IsUnified := by
  obtain ⟨e, he, h⟩ := transform_eq_ok.1 h
  exact Engine.isUnified_of_run (engine_spec he).1 h ht

end Settings

namespace Config

variable {v : Value} {s : Settings}

/-- Checked settings say how many files are processed at a time. -/
theorem jobs_of_checked (h : checked v = .ok s) :
    ∃ n, s.processing.jobs.int? = some n ∧ 0 < n := by
  obtain ⟨es, rfl, hpass, rfl⟩ := checked_spec h
  simp only [settingsOf, Settings.ofHoldings, Settings.Holdings.shared_eq]
  cases hf : Value.field? "jobs" (sectionEntries es "processing") with
  | none => exact ⟨1, rfl, by decide⟩
  | some v =>
      have hpos := hpass.jobs v hf
      rw [isPositive, Option.any_eq_true] at hpos
      obtain ⟨n, hn, hpos⟩ := hpos
      exact ⟨n, hn, by simpa using hpos⟩

theorem usesPool_of_checked (h : checked v = .ok s) (count : Nat) :
    ∃ pooled, Batch.usesPool s count = .ok pooled := by
  obtain ⟨n, hn, -⟩ := jobs_of_checked h
  unfold Batch.usesPool
  split
  · exact ⟨_, by rw [hn]⟩
  · exact ⟨false, rfl⟩

end Config

end Codemod
