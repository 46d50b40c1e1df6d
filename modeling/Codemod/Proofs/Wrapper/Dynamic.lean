/-
Names behind a dynamic scope.

A `with` statement or a direct `eval` can rebind a name that no
declaration binds. A place is undisturbed when no `with` is around it and
none of the scopes around it, the program included, has either in it;
since the program is the outermost of these scopes, that is a property of
the program (`undisturbed_iff`).

What is asked of a factory includes it: an undeclared name means the
factory in an undisturbed program only
(`IsLive.not_hasDynamicScope_of_undeclared`). The test for other global
names looks at declarations and writes alone. So it tells the truth about
a program just when the program is undisturbed
(`Rule.isGlobal_undisturbed_iff`), and a rule for older idioms rewrites a
call whose object may have been rebound
(`Rules.power_rewrites_within_with`).
-/
import Mathlib.Data.Fintype.EquivFin
import Codemod.Proofs.Wrapper.Live

namespace Codemod

namespace Cursor

variable {n : Node} {names : List Text} {c d : Cursor}

/-- Nothing around the place can rebind a name: it is in no `with`
statement, and no scope around it holds one or calls `eval` directly. -/
structure Undisturbed (c : Cursor) : Prop where
  notInWith : c.inWith = false
  steady : ∀ s ∈ c.scopeChain, s.hasDynamicScope = false

theorem hasDynamicScope_of_mem_walk (hd : d ∈ c.walk)
    (h : c.hasDynamicScope = false) : d.hasDynamicScope = false := by
  rw [hasDynamicScope, List.any_eq_false] at h ⊢
  exact fun e he => h e (mem_walk_trans hd he)

/-- A place is around itself, and in the tree that is around it. -/
theorem Placed.of_mem_self_and_ancestors (hc : c.Placed)
    (hd : d ∈ c :: c.ancestors) : d ∈ c.root.walk := by
  rcases List.mem_cons.1 hd with rfl | hd
  · exact hc.mem_walk_root
  · obtain ⟨hp, hroot, -⟩ := hc.of_mem_ancestors hd
    rw [← hroot]
    exact hp.mem_walk_root

/-- The top of the tree is around every place in it. -/
theorem root_mem_ancestors (c : Cursor) : c.root ∈ c :: c.ancestors := by
  obtain ⟨n, above⟩ := c
  induction above generalizing n with
  | nil => exact List.mem_cons_self
  | cons pi up ih =>
      obtain ⟨p, i⟩ := pi
      exact List.mem_cons_of_mem _ (ih p)

/-- In a program that nothing disturbs no place is disturbed. -/
theorem Placed.undisturbed (hc : c.Placed) (h : c.root.hasDynamicScope = false) :
    c.Undisturbed := by
  constructor
  · rw [inWith, List.any_eq_false]
    intro a ha hwith
    have hmem := hc.of_mem_self_and_ancestors (List.mem_cons_of_mem _ ha)
    rw [hasDynamicScope, List.any_eq_false] at h
    exact h a hmem (by rw [hwith, Bool.true_or])
  · intro s hs
    exact hasDynamicScope_of_mem_walk
      (hc.of_mem_self_and_ancestors (List.mem_filter.1 hs).1) h

/-- A place is undisturbed just when its program is: the program is one of
the scopes around it. -/
theorem undisturbed_iff (hn : n.is .program = true) (hc : c ∈ (top n).walk) :
    c.Undisturbed ↔ (top n).hasDynamicScope = false := by
  obtain ⟨hplaced, hroot⟩ := mem_walk_top.1 hc
  constructor
  · intro h
    refine h.steady _ (List.mem_filter.2 ⟨?_, ?_⟩)
    · rw [← hroot]
      exact root_mem_ancestors c
    · rw [isScope, show (top n).is .program = true from hn]
      rfl
  · intro h
    rw [← hroot] at h
    exact hplaced.undisturbed h

/-- A name that is neither declared nor written in the file is global. -/
theorem isGlobal_of_unmentioned {name : Text}
    (hdeclared : ∀ x ∈ c.root.declarations, x.name ≠ name)
    (hwritten : ∀ x ∈ c.root.writes, x.code ≠ name) : c.isGlobal name = true := by
  have hnil : c.declarationsOf name = [] := by
    rw [declarationsOf, List.filter_eq_nil_iff]
    intro x hx
    simpa using hdeclared x hx
  have hunwritten : c.root.isWritten name = false := by
    rw [isWritten, List.any_eq_false]
    intro x hx
    simpa using hwritten x hx
  rw [isGlobal, binding?, hnil, lookUp_nil, hunwritten]
  rfl

/-- In every program some name is global. -/
theorem exists_isGlobal (c : Cursor) : ∃ name, c.isGlobal name = true := by
  obtain ⟨name, hname⟩ := Infinite.exists_notMem_finset
    (c.root.declarations.map (·.name) ++ c.root.writes.map (·.code)).toFinset
  simp only [List.mem_toFinset, List.mem_append, List.mem_map, not_or, not_exists,
    not_and] at hname
  exact ⟨name, isGlobal_of_unmentioned hname.1 hname.2⟩

/-- An undeclared name means the factory in an undisturbed program
only. -/
theorem IsLive.not_hasDynamicScope_of_undeclared (h : d.IsLive names)
    (hd : d.binding? d.code = none) : d.root.hasDynamicScope = false := by
  have hmeans := h.means
  rw [meansFactory, meansFactoryWithin, hd] at hmeans
  cases hdyn : d.root.hasDynamicScope with
  | false => rfl
  | true => cases hw : d.inWith <;> simp [hw, hdyn] at hmeans

end Cursor

open Cursor

/-- In a parsed program whatever passes for a global name is undisturbed
where it stands if and only if the program has no `with` statement and no
direct `eval`. In any program a rule for wrappers rewrites only what is
undisturbed where it acts through a factory that the program does not
declare. -/
theorem Rule.isGlobal_undisturbed_iff {source : Text} {n : Node}
    (hn : parse source = .ok n) :
    ((∀ name, ∀ c ∈ (top n).walk, c.isGlobal name = true → c.Undisturbed)
        ↔ (top n).hasDynamicScope = false)
      ∧ ∀ rule ∈ Registry.builtin.rules, rule.group = "jquery" →
        ∀ context, ∀ r ∈ rule.rewrites context (.ofProgram n),
          ∃ d ∈ r.site.root.walk, d.IsLive context.factoryNames
            ∧ r.site.Through d
            ∧ (d.binding? d.code = none → r.site.Undisturbed) := by
  have hprogram := parse_program hn
  refine ⟨⟨fun h => ?_, fun h name c hc _ => (undisturbed_iff hprogram hc).2 h⟩, ?_⟩
  · have htop := self_mem_walk (top n)
    obtain ⟨name, hname⟩ := exists_isGlobal (top n)
    exact (undisturbed_iff hprogram htop).1 (h name _ htop hname)
  · intro rule hrule hg context r hr
    obtain ⟨hplaced, d, hd, hlive, hthrough⟩ :=
      Rule.through_live_of_mem_rewrites hrule hg (parse_sound hn) hr
    have hroot : d.root = r.site.root.root := root_of_mem_walk hd
    refine ⟨d, hd, hlive, hthrough, fun hnone => hplaced.undisturbed ?_⟩
    rw [← show d.root = r.site.root from hroot]
    exact hlive.not_hasDynamicScope_of_undeclared hnone

/-- `Math` is global in a program without `with` and `eval`, and nothing
disturbs it there. -/
theorem Rule.isGlobal_undisturbed_in_power :
    ∃ n c, parse (Text.ofString "Math.pow(a, 2);") = .ok n
      ∧ c ∈ (top n).walk ∧ c.is .callExpression = true
      ∧ c.isGlobal "Math" = true ∧ c.Undisturbed := by
  have h : holdsAt (Text.ofString "Math.pow(a, 2);") [0, 0] (fun c =>
      c.is .callExpression && c.isGlobal "Math" && !c.root.hasDynamicScope)
        = true := by decide +kernel
  obtain ⟨n, c, hn, hc, ht⟩ := exists_of_holdsAt h
  simp only [Bool.and_eq_true, Bool.not_eq_true', (mem_walk_top.1 hc).2] at ht
  obtain ⟨⟨hk, hglobal⟩, hsteady⟩ := ht
  exact ⟨n, c, hn, hc, hk, hglobal,
    (Rule.isGlobal_undisturbed_iff hn).1.2 hsteady "Math" c hc hglobal⟩

/-- The object of a `with` statement may have a `Math` of its own: the name
passes for a global one there, and the call is rewritten. -/
theorem Rules.power_rewrites_within_with :
    ∃ n, parse (Text.ofString "with (o) { Math.pow(a, b); }") = .ok n
      ∧ (∃ c ∈ (top n).walk, c.isGlobal "Math" = true ∧ ¬ c.Undisturbed)
      ∧ (∃ r ∈ power.rewrites .default (.ofProgram n),
        r.site.code = Text.ofString "Math.pow(a, b)" ∧ r.site.inWith = true)
      ∧ (power.apply .default (.ofProgram n)).1.render
        = Text.ofString "with (o) { a ** b; }" := by
  obtain ⟨n, hn, h⟩ := exists_of_parse_any
    (Text.ofString "with (o) { Math.pow(a, b); }")
    (fun n => (top n).walk.any (fun c => c.isGlobal "Math" && c.inWith)
      && (power.rewrites .default (.ofProgram n)).any (fun r =>
        r.site.code == Text.ofString "Math.pow(a, b)" && r.site.inWith)
      && (power.apply .default (.ofProgram n)).1.render
        == Text.ofString "with (o) { a ** b; }")
    (by decide +kernel)
  simp only [Bool.and_eq_true, List.any_eq_true, beq_iff_eq] at h
  obtain ⟨⟨⟨c, hc, hglobal, hwith⟩, hr⟩, hrender⟩ := h
  refine ⟨n, hn, ⟨c, hc, hglobal, fun hu => ?_⟩, hr, hrender⟩
  rw [hu.notInWith] at hwith
  cases hwith

end Codemod
