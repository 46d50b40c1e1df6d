/-
Rules keep effects.

Of the built-in rules all but one work by rewrites that keep effects
(`Rule.keeps_of_mem`); the one that drops directives from modules makes
no rewrites and drops nothing that has effects. So a rule loses no effect
of a program, doubles none and leaves those of one function body in
order, just when each of its rewrites is careful
(`effectsKept_iff_careful`): it drops no template in which there is an
effect, and it exchanges no two effects of one function body.

A template that is dropped takes along the calls in it, and the `var`s of
the classes in it.
-/
import Codemod.Proofs.Effect.Course
import Codemod.Proofs.Parse.Program

namespace Codemod

-- ============================================================= directives

namespace Node

variable {t : Nat} {cs : List Node} {q : Kind → Bool → Bool}

theorem dropHandingLead_cons (c : Node) : dropHandingLead t (c :: cs)
    = if c.id == some t then
        match cs with
        | [] => []
        | d :: ds => d.placed d.role c.lead :: ds
      else c :: dropHandingLead t cs := by
  cases cs with
  | nil => rfl
  | cons d ds => rfl

theorem listed_dropHandingLead_sublist :
    ((dropHandingLead t cs).flatMap (listed q)).Sublist
      (cs.flatMap (listed q)) := by
  induction cs with
  | nil => exact List.Sublist.refl _
  | cons c cs ih =>
      rw [dropHandingLead_cons]
      split
      · cases cs with
        | nil => exact List.nil_sublist _
        | cons d ds =>
            simp only [List.flatMap_cons, listed_placed]
            exact List.sublist_append_right _ _
      · rw [List.flatMap_cons, List.flatMap_cons]
        exact (List.Sublist.refl _).append ih

/-- A child of which nothing is told is not missed, if leads do not
matter. -/
theorem flatMap_dropHandingLead {α : Type} {n : Node} {g : Node → List α}
    (hg : ∀ (d : Node) r l, g (d.placed r l) = g d)
    (hn : cs.find? (·.id == some t) = some n) (hnil : g n = []) :
    (dropHandingLead t cs).flatMap g = cs.flatMap g := by
  induction cs with
  | nil => rfl
  | cons c cs ih =>
      rw [List.find?_cons] at hn
      rw [dropHandingLead_cons]
      split at hn
      · next hid =>
          obtain rfl := Option.some.inj hn
          rw [if_pos hid, List.flatMap_cons, hnil]
          cases cs with
          | nil => rfl
          | cons d ds => simp only [List.flatMap_cons, hg, List.nil_append]
      · next hid =>
          rw [hid, List.flatMap_cons, ← ih hn]
          rfl

theorem length_dropHandingLead {n : Node}
    (hn : cs.find? (·.id == some t) = some n) :
    (dropHandingLead t cs).length + 1 = cs.length := by
  induction cs with
  | nil => cases hn
  | cons c cs ih =>
      rw [List.find?_cons] at hn
      rw [dropHandingLead_cons]
      split at hn
      · next hid =>
          rw [if_pos hid]
          cases cs <;> rfl
      · next hid =>
          rw [hid, List.length_cons, ← ih hn]
          rfl

theorem shaped_dropHandingLead (h : ∀ c ∈ cs, c.Shaped) :
    ∀ c ∈ dropHandingLead t cs, c.Shaped := by
  induction cs with
  | nil => exact h
  | cons c cs ih =>
      rw [List.forall_mem_cons] at h
      rw [dropHandingLead_cons]
      split
      · cases cs with
        | nil => simp
        | cons d ds =>
            rw [List.forall_mem_cons] at h
            simpa using ⟨h.2.1, h.2.2⟩
      · rw [List.forall_mem_cons]
        exact ⟨h.1, ih h.2⟩

end Node

namespace Rules

/-- A directive has no effects. -/
theorem effects_of_isUseStrict {n : Node} (hs : n.Shaped)
    (h : isUseStrict n = .ok true) : n.effects = [] := by
  unfold isUseStrict at h
  split at h
  · cases h
  · next hd =>
      unfold isDirective at hd
      split at h
      · next e he =>
          rw [he] at hd
          simp only [Bool.not_eq_true', Bool.not_eq_false, Bool.and_eq_true] at hd
          have hmem : e ∈ n.children := by
            refine List.mem_of_mem_filter (p := Node.isOperand) ?_
            show e ∈ n.operands
            rw [he]
            exact List.mem_singleton.2 rfl
          have hstring : e.effects = [] :=
            Cursor.effects_of_no_parts (c := Cursor.top e) (s := .string)
              (hs.of_mem_children hmem).formed hd.2 rfl (by decide)
          rw [Node.effects_eq, Cursor.ownListed_of_kind hd.1 (by decide),
            Cursor.effects_operands hs, he]
          simp [hstring]
      · cases h

/-- Dropping directives leaves the effects alone. -/
theorem dropUseStrict_spec {is : List Nat} {changed : Bool} {w : Workspace}
    (hs : ∀ c ∈ w.program.children, c.Shaped) :
    (dropUseStrict is changed w).1.program.effects = w.program.effects
      ∧ (dropUseStrict is changed w).1.program.ids.Sublist w.program.ids := by
  induction is generalizing changed w with
  | nil => exact ⟨rfl, List.Sublist.refl _⟩
  | cons i is ih =>
      rw [dropUseStrict]
      cases hn : w.program.children.find? (·.id == some i) with
      | none => exact ih hs
      | some n =>
          simp only
          split
          · exact ih hs
          · match hu : isUseStrict n with
            | .error _ => exact ⟨rfl, List.Sublist.refl _⟩
            | .ok true =>
                have hid : n.id = some i := by simpa using List.find?_some hn
                have hnil := effects_of_isUseStrict
                  (hs n (List.mem_of_find?_eq_some hn)) hu
                have hprog : (dropStatement w n).program = { w.program with
                    children := Node.dropHandingLead i w.program.children } := by
                  rw [dropStatement, hid]
                obtain ⟨heff, hids⟩ := @ih true (dropStatement w n)
                  (by rw [hprog]; exact Node.shaped_dropHandingLead hs)
                rw [hprog] at heff hids
                refine ⟨heff.trans ?_, hids.trans ?_⟩
                · rw [Node.effects_eq, Node.effects_eq w.program]
                  exact congrArg (_ ++ ·) (Node.flatMap_dropHandingLead
                    (fun _ _ _ => Node.listed_placed ..) hn hnil)
                · rw [Node.ids_eq_listed, Node.ids_eq_listed, Node.listed_eq,
                    Node.listed_eq _ w.program]
                  exact (List.Sublist.refl _).append
                    Node.listed_dropHandingLead_sublist
            | .ok false =>
                simp only
                split
                · exact ih hs
                · exact ⟨rfl, List.Sublist.refl _⟩

theorem effectsKept_relaxModule {w : Workspace} (hw : w.Sound) :
    EffectsKept [] w.program (relaxModule w).1.program := by
  have hspec : (relaxModule w).1.program.effects = w.program.effects
      ∧ (relaxModule w).1.program.ids.Sublist w.program.ids := by
    unfold relaxModule
    split
    · exact ⟨rfl, List.Sublist.refl _⟩
    · exact dropUseStrict_spec fun c hc => hw.shaped.of_mem_children hc
  obtain ⟨heff, hids⟩ := hspec
  constructor
  · intro i hi _
    rw [← heff] at hi
    exact List.count_eq_one_of_mem (hw.nodup.sublist hids)
      (Node.mem_ids_of_mem_listed hi)
  · intro i j hij _ _ _
    rw [← heff] at hij
    exact hij.trans (Node.listed_sublist_ids _ _)

end Rules

-- ============================================================= the rules

/-- Every built-in rule that works by rewrites keeps the effects of what
it rewrites. -/
theorem Rule.keeps_of_mem {rule : Rule} (h : rule ∈ Registry.builtin.rules) :
    rule.Keeps ∨ rule = Rules.useStrict := by
  simp only [Registry.builtin, List.mem_cons, List.not_mem_nil, or_false] at h
  rcases h with rfl | rfl | rfl | rfl | rfl | rfl | rfl | rfl | rfl | rfl | rfl
    | rfl | rfl | rfl | rfl | rfl | rfl | rfl | rfl | rfl | rfl | rfl | rfl | rfl
    | rfl | rfl | rfl | rfl | rfl | rfl | rfl | rfl | rfl | rfl | rfl | rfl
  · exact Or.inl Rules.keeps_showHide
  · exact Or.inl Rules.keeps_css
  · exact Or.inl Rules.keeps_windowSize
  · exact Or.inl Rules.keeps_addRemoveClass
  · exact Or.inl Rules.keeps_toggleClass
  · exact Or.inl Rules.keeps_hasClass
  · exact Or.inl Rules.keeps_attr
  · exact Or.inl Rules.keeps_removeAttr
  · exact Or.inl Rules.keeps_prop
  · exact Or.inl Rules.keeps_contentAccessors
  · exact Or.inl Rules.keeps_addListener
  · exact Or.inl Rules.keeps_removeListener
  · exact Or.inl Rules.keeps_trigger
  · exact Or.inl Rules.keeps_ready
  · exact Or.inl Rules.keeps_neighbours
  · exact Or.inl Rules.keeps_closest
  · exact Or.inl Rules.keeps_find
  · exact Or.inl Rules.keeps_siblings
  · exact Or.inl Rules.keeps_removeAndEmpty
  · exact Or.inl Rules.keeps_insertion
  · exact Or.inl Rules.keeps_each
  · exact Or.inl Rules.keeps_grep
  · exact Or.inl Rules.keeps_map
  · exact Or.inl Rules.keeps_trim
  · exact Or.inl Rules.keeps_inArray
  · exact Or.inl Rules.keeps_byId
  · exact Or.inl Rules.keeps_byClass
  · exact Or.inl Rules.keeps_eachElement
  · exact Or.inl Rules.keeps_unwrapElement
  · exact Or.inl Rules.keeps_power
  · exact Or.inl Rules.keeps_substr
  · exact Or.inl Rules.keeps_includes
  · exact Or.inl Rules.keeps_startsWithIndex
  · exact Or.inl Rules.keeps_startsWithPart
  · exact Or.inl Rules.keeps_arrayFrom
  · exact Or.inr rfl

/-- A rule keeps the effects of a sound program just when its rewrites are
careful. -/
theorem Rule.effectsKept_iff {rule : Rule} (h : rule ∈ Registry.builtin.rules)
    (context : RuleContext) {w : Workspace} (hw : w.Sound) :
    EffectsKept (spentBy context.factoryNames (rule.rewrites context w))
        w.program (rule.apply context w).1.program
      ↔ ∀ r ∈ rule.rewrites context w, r.Careful w.program
        (spentBy context.factoryNames (rule.rewrites context w)) := by
  rcases Rule.keeps_of_mem h with ⟨k, hk, sweeps, haction, hsweeps⟩ | rfl
  · rw [Rule.rewrites, Rule.apply, haction]
    exact (Sweep.course_runSweeps hk hsweeps hw).effectsKept_iff
  · refine iff_of_true (Rules.effectsKept_relaxModule hw) ?_
    exact List.forall_mem_nil _

/-- A rule keeps the effects of a parsed program just when its rewrites are
careful. -/
theorem Rule.effectsKept_iff_careful {rule : Rule}
    (h : rule ∈ Registry.builtin.rules) (context : RuleContext) {source : Text}
    {n : Node} (hn : parse source = .ok n) :
    EffectsKept (spentBy context.factoryNames (rule.rewrites context (.ofProgram n)))
        n (rule.apply context (.ofProgram n)).1.program
      ↔ ∀ r ∈ rule.rewrites context (.ofProgram n), r.Careful n
        (spentBy context.factoryNames (rule.rewrites context (.ofProgram n))) :=
  Rule.effectsKept_iff h context (parse_sound hn)

/-- A rewrite is careful that leaves out no template with effects and
exchanges nothing. -/
theorem Rewrite.careful_of_isEmpty {n : Node} {spent : List Nat} {r : Rewrite}
    (h : (r.site.templateEffects.isEmpty && r.site.swapped?.isNone) = true) :
    r.Careful n spent := by
  rw [Bool.and_eq_true, List.isEmpty_iff, Option.isNone_iff_eq_none] at h
  constructor
  case template =>
    intro i hi
    rw [h.1] at hi
    cases hi
  case exchange =>
    rintro i j ⟨value, array, hs, -⟩
    rw [h.2] at hs
    cases hs

theorem Rules.showHide_keeps_effects :
    showHide ∈ Registry.builtin.rules
      ∧ ∃ n, parse (Text.ofString "f(); $(a.closest('p')).show(); g();") = .ok n
        ∧ EffectsKept
          (spentBy defaultFactoryNames (showHide.rewrites .default (.ofProgram n)))
          n (showHide.apply .default (.ofProgram n)).1.program := by
  have hrule : showHide ∈ Registry.builtin.rules := List.mem_cons_self
  obtain ⟨n, hn, h⟩ := exists_of_parse_any
    (Text.ofString "f(); $(a.closest('p')).show(); g();")
    (fun n => (showHide.rewrites .default (.ofProgram n)).all fun r =>
      r.site.templateEffects.isEmpty && r.site.swapped?.isNone)
    (by decide +kernel)
  refine ⟨hrule, n, hn, (Rule.effectsKept_iff_careful hrule .default hn).2 ?_⟩
  exact fun r hr => Rewrite.careful_of_isEmpty (List.all_eq_true.1 h r hr)

-- ================================================== what a template takes

/-- An effect that is not spent and has no place in the new program is
lost. -/
theorem not_effectsKept_of_any {spent : List Nat} {n n' : Node}
    (h : (n.effects.any fun i => !spent.contains i && !n'.ids.contains i) = true) :
    ¬ EffectsKept spent n n' := by
  intro hkept
  obtain ⟨i, hi, hlost⟩ := List.any_eq_true.1 h
  simp only [Bool.and_eq_true, Bool.not_eq_true', List.contains_eq_mem,
    decide_eq_false_iff_not] at hlost
  have hcount := hkept.once i hi hlost.1
  rw [List.count_eq_zero.2 hlost.2] at hcount
  cases hcount

/-- The template of a tagged call is left out, and the call in it is
lost. -/
theorem Rules.showHide_loses_effect :
    ∃ n, parse (Text.ofString "$(el).show`${f()}`;") = .ok n
      ∧ ¬ EffectsKept
        (spentBy defaultFactoryNames (showHide.rewrites .default (.ofProgram n)))
        n (showHide.apply .default (.ofProgram n)).1.program := by
  obtain ⟨n, hn, h⟩ := exists_of_parse_any
    (Text.ofString "$(el).show`${f()}`;")
    (fun n => n.effects.any fun i =>
      !(spentBy defaultFactoryNames
          (showHide.rewrites .default (.ofProgram n))).contains i
        && !(showHide.apply .default (.ofProgram n)).1.program.ids.contains i)
    (by decide +kernel)
  exact ⟨n, hn, not_effectsKept_of_any h⟩

open Cursor in
/-- A name that is used outside of the template can be declared in it: the
`var` of a static block counts for the whole program. -/
theorem Rules.showHide_loses_declaration :
    ∃ n c d, parse (Text.ofString "x; $(el).show`${class { static { var x; } }}`;")
        = .ok n
      ∧ c ∈ (top n).walk
      ∧ d ∈ (top (showHide.apply .default (.ofProgram n)).1.program).walk
      ∧ c.is .identifier = true ∧ d.same c = true
      ∧ c.binding? c.code ≠ none ∧ d.binding? d.code = none := by
  obtain ⟨n, hn, h⟩ := exists_of_parse_any
    (Text.ofString "x; $(el).show`${class { static { var x; } }}`;")
    (fun n => (top n).walk.any fun c => c.is .identifier
      && (c.binding? c.code).isSome
      && (top (showHide.apply .default (.ofProgram n)).1.program).walk.any fun d =>
        d.same c && (d.binding? d.code).isNone)
    (by decide +kernel)
  simp only [List.any_eq_true, Bool.and_eq_true, Option.isSome_iff_ne_none,
    Option.isNone_iff_eq_none] at h
  obtain ⟨c, hc, ⟨hk, hbound⟩, d, hd, hsame, hfree⟩ := h
  exact ⟨n, c, d, hn, hc, hd, hk, hsame, hbound, hfree⟩

end Codemod
