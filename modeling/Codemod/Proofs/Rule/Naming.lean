/-
The name that comes for `this`.

A visitor of elements that says `this` is rewritten to say the name of
its second parameter instead. Each such place then holds the element when
three things are so (`HoldsElement`): the parameter is the only
declaration of its name in the visitor, nothing there assigns to it or
gets at it through `arguments`, and nothing between the place and the
visitor takes the name over.

The guard looks for assignments and asks which scope binds the name, so
no scope in between does (`code_ne_of_boundBetween`). It does not count
the declarations in that scope, and a disguised name escapes it. Main
statement: `Rules.eachElement_holdsElement_iff`.
`Rules.eachElement_names_redeclared_parameter` is a visitor that
declares its parameter again.
-/
import Codemod.Proofs.Rule.Callers
import Codemod.Proofs.Rule.Keeping
import Codemod.Proofs.Scope.Owner
import Codemod.Proofs.Wrapper.Dynamic
import Codemod.Proofs.Wrapper.Uses

namespace Codemod

namespace Cursor

variable {c e f q s t x element : Cursor} {name : Text} {names : List Text} {root : Node}

-- ============================================================ definitions

/-- In the function the parameter is the only declaration of its name, the
name that the function has for itself apart. -/
def IsSole (f element : Cursor) : Prop :=
  ∀ x ∈ f.parameterNames ++ (f.varsOf ++ f.letsOf), x.Denotes element.code → x = element

/-- A construct inside the function binds an identifier for the part of it
that holds the place. -/
def BoundBetween (f t q x : Cursor) : Prop :=
  q ∈ f.walk ∧ q ≠ f ∧ ∃ d ∈ q.children, t ∈ d.walk ∧ x ∈ q.namesFor d.node

/-- From the place a name is looked up in the function: nothing in between
binds it, and no `with` statement is in between. -/
structure Sees (t f : Cursor) (name : Text) : Prop where
  within : t ∈ f.walk
  unbound : ∀ q x, BoundBetween f t q x → ¬ x.Denotes name
  notInWith : ∀ q ∈ f.walk, t ∈ q.walk → q.is .withStatement = false

/-- Wherever the function says `this`, the name of its parameter means the
parameter and holds the value that was passed. -/
structure HoldsElement (f element : Cursor) : Prop where
  sole : f.IsSole element
  constant : f.Constant element.code
  unaliased : ∀ u ∈ f.walk, ¬ f.IsOwnArguments u
  seen : ∀ t ∈ f.thisReferences, t.Sees f element.code

/-- The name of the parameter is declared once, and nothing that could give
the name another value or meaning is disguised: neither an assignment nor
the word `arguments`, nor what binds the name between the function and
its `this`, which a scope does with the same spelling. -/
structure IsOpen (f element : Cursor) : Prop where
  sole : f.IsSole element
  undisguised : f.Undisguised element.code
  bare : ∀ u ∈ f.walk, f.IsOwnArguments u → u.isArgumentsName = true
  spelled : ∀ t ∈ f.thisReferences, ∀ q x, BoundBetween f t q x →
    x.Denotes element.code → q.isScope = true ∧ x.code = element.code

-- ================================================================ looking up

/-- A scope farther in than the one where the name is found declares it
not. -/
theorem inScope_eq_nil_of_lookUp {ds found : List Declaration} {ss : List Cursor}
    (h : lookUp ds ss = some (f, found))
    (hss : ss.Pairwise fun a b => b.above.length < a.above.length) (hq : q ∈ ss)
    (hlt : f.above.length < q.above.length) : inScope ds q = [] := by
  induction ss with
  | nil => cases hq
  | cons s ss ih =>
      obtain ⟨hhigher, hss⟩ := List.pairwise_cons.1 hss
      rw [lookUp] at h
      split at h
      · next hnil =>
          rcases List.mem_cons.1 hq with rfl | hq
          · exact hnil
          · exact ih h hss hq
      · obtain ⟨rfl, -⟩ := Prod.mk.inj (Option.some.inj h)
        rcases List.mem_cons.1 hq with rfl | hq
        · exact absurd hlt (Nat.lt_irrefl _)
        · exact absurd hlt (Nat.lt_asymm (hhigher q hq))

theorem pairwise_scopeChain (c : Cursor) :
    c.scopeChain.Pairwise fun a b => b.above.length < a.above.length :=
  List.Pairwise.filter _ (.cons (fun _ ha => length_above_lt_of_mem_ancestors ha)
    (pairwise_ancestors c))

/-- Where a name is found in a function, no scope in between binds it. -/
theorem code_ne_of_boundBetween (hid : root.Identified) (hroot : root.is .program = true)
    (ht : t ∈ (top root).walk) (hf : f ∈ (top root).walk)
    (hb : t.bindingScope? name = some f) (h : BoundBetween f t q x)
    (hs : q.isScope = true) : x.code ≠ name := by
  rintro rfl
  obtain ⟨hqf, hne, d, hd, htd, hx⟩ := h
  have hq := mem_walk_trans hf hqf
  obtain ⟨⟨g, found⟩, hlook, rfl⟩ := Option.map_eq_some_iff.1 hb
  have hchain : q ∈ t.scopeChain :=
    List.mem_filter.2 ⟨List.mem_cons_of_mem _ (mem_ancestors_of_mem_child hd htd), hs⟩
  have hlt : g.above.length < q.above.length := by
    rcases mem_walk_iff.1 hqf with rfl | ⟨a, ha, hqa⟩
    · exact absurd rfl hne
    · exact length_above_lt_of_mem_child ha hqa
  have hnil := inScope_eq_nil_of_lookUp hlook (pairwise_scopeChain t) hchain hlt
  obtain ⟨y, hy, -⟩ := (exists_mem_inScope_iff hid hroot hq hs d.node).2 ⟨rfl, Or.inl hx⟩
  rw [declarationsOf_eq hq, ← declarationsOf_eq ht, hnil] at hy
  cases hy

-- ============================================================== the guard

/-- What is asked of the second parameter of a visitor. -/
theorem namesThis_iff : f.namesThis element = true
    ↔ f.isWritten element.code = false
      ∧ ∀ t ∈ f.thisReferences, ∃ s, t.bindingScope? element.code = some s
        ∧ s.same f = true := by
  rw [namesThis, Bool.and_eq_true, Bool.not_eq_true', List.all_eq_true]
  refine and_congr_right fun _ => forall₂_congr fun t _ => ?_
  cases t.bindingScope? element.code with
  | none => simp
  | some s => simp

theorem bindingScope?_of_namesThis (hid : root.Identified) (hf : f ∈ (top root).walk)
    (h : f.namesThis element = true) (ht : t ∈ f.thisReferences) :
    t.bindingScope? element.code = some f := by
  obtain ⟨s, hs, hsame⟩ := (namesThis_iff.1 h).2 t ht
  have htw := mem_walk_trans hf (mem_thisReferences.1 ht).1.mem_walk
  obtain ⟨⟨g, found⟩, hlook, rfl⟩ := Option.map_eq_some_iff.1 hs
  rw [hs, eq_of_same hid (mem_walk_of_mem_scopeChain htw (mem_of_lookUp hlook)).1 hf hsame]

/-- Behind the guard the name holds the element just when it is declared
once and nothing about it is disguised. -/
theorem holdsElement_iff (hid : root.Identified) (hroot : root.is .program = true)
    (hf : f ∈ (top root).walk) (h : f.namesThis element = true)
    (hdyn : f.hasDynamicScope = false)
    (hargs : f.is .arrowFunction = true ∨ f.usesArguments = false) :
    f.HoldsElement element ↔ f.IsOpen element := by
  have hwritten := (namesThis_iff.1 h).1
  constructor
  · rintro ⟨hsole, hconst, hno, hseen⟩
    refine ⟨hsole, (constant_iff hwritten hdyn).1 hconst, (not_isOwnArguments_iff hargs).1 hno,
      fun t ht q x hx hden => ?_⟩
    exact absurd hden ((hseen t ht).unbound q x hx)
  · rintro ⟨hsole, hplain, hbare, hspelled⟩
    refine ⟨hsole, (constant_iff hwritten hdyn).2 hplain,
      (not_isOwnArguments_iff hargs).2 hbare, fun t ht => ?_⟩
    have htf := (mem_thisReferences.1 ht).1.mem_walk
    refine ⟨htf, fun q x hx hden => ?_, fun q hq _ => ?_⟩
    · obtain ⟨hs, hcode⟩ := hspelled t ht q x hx hden
      exact code_ne_of_boundBetween hid hroot (mem_walk_trans hf htf) hf
        (bindingScope?_of_namesThis hid hf h ht) hx hs hcode
    · rw [hasDynamicScope, List.any_eq_false] at hdyn
      have hno := hdyn q hq
      simp only [Bool.or_eq_true, not_or, Bool.not_eq_true] at hno
      exact hno.1

/-- A visitor that says `this` in its own right has a parameter that stands
for it. -/
theorem namesThis_of_visitorParameters? {params : List Cursor}
    (h : f.visitorParameters? = some params) : f.is .arrowFunction = true
      ∨ f.thisReferences = []
      ∨ ∃ index element, params = [index, element] ∧ f.namesThis element = true := by
  have hsimple := Rules.simpleParameters?_of_visitorParameters? h
  simp only [visitorParameters?, hsimple] at h
  obtain ⟨-, h⟩ := Option.ite_none_left_eq_some.1 h
  obtain ⟨-, h⟩ := Option.ite_none_left_eq_some.1 h
  split at h
  · next harrow => exact Or.inl harrow
  · obtain ⟨-, h⟩ := Option.ite_none_left_eq_some.1 h
    split at h
    · next hnil => exact Or.inr (Or.inl (List.isEmpty_iff.1 hnil))
    · split at h
      · next index element _ _ _ =>
          obtain ⟨hnames, -⟩ := Option.ite_none_right_eq_some.1 h
          exact Or.inr (Or.inr ⟨index, element, rfl, hnames⟩)
      · cases h

-- ======================================================== dynamic scopes

/-- A name means the factory in the steady scope that declares it, or in a
steady program. -/
theorem exists_steady_of_meansFactory (h : c.meansFactory names name = .ok true) :
    c.root.hasDynamicScope = false ∨ ∃ s ∈ c.scopeChain, s.hasDynamicScope = false := by
  rw [meansFactory, meansFactoryWithin] at h
  split at h
  · cases h
  · split at h
    · simp only [Except.ok.injEq, Bool.and_eq_true, Bool.not_eq_true'] at h
      exact Or.inl h.1
    · next s d hb =>
        split at h
        · cases h
        · next hno =>
            simp only [Bool.or_eq_true, not_or, Bool.not_eq_true] at hno
            exact Or.inr ⟨s, mem_of_lookUp hb, hno.1⟩
    · cases h

end Cursor

open Cursor

variable {context : RuleContext} {c callback : Cursor} {params : List Cursor} {new : Node}

/-- Nothing dynamic is in a visitor: what binds the name of the factory
holds the whole call, and is asked for it. -/
theorem VisitsElements.not_hasDynamicScope (hc : c.Placed)
    (hk : c.is .callExpression = true)
    (h : VisitsElements context c callback params new) :
    callback.unparen.hasDynamicScope = false := by
  obtain ⟨m, name, o, hm, ho, hlive⟩ := h.factory
  obtain ⟨g, -, -, -, hmeans⟩ := isFactoryCall_callee hlive
  have hcall := (isFactoryCall_spec hlive).1
  rw [unparen_unparen] at hmeans hcall
  have hnear := near_of_object hk hm ho
  have hmem : callback.unparen ∈ c.walk := mem_walk_trans
    (mem_walk_of_mem_arguments (by rw [h.arguments]; exact List.mem_singleton.2 rfl))
    (unparen_mem_walk callback)
  rcases exists_steady_of_meansFactory hmeans with hroot | ⟨s, hs, hsteady⟩
  · rw [hnear.root] at hroot
    exact hasDynamicScope_of_mem_walk (mem_walk_trans hc.mem_walk_root hmem) hroot
  · rw [scopeChain_of_not_isScope (isScope_of_kind hcall (by decide)), hnear.scopes] at hs
    obtain ⟨-, -, hcs⟩ := hc.of_mem_ancestors (List.mem_of_mem_filter hs)
    exact hasDynamicScope_of_mem_walk (mem_walk_trans hcs hmem) hsteady

namespace Rules

/-- Where a rewritten visitor says `this` and is no arrow function, it has a
second parameter whose name comes for it. No name of this spelling is
assigned to in the visitor, and each `this` finds the name in the visitor.
So the name holds the element just when the visitor declares it once, and
no assignment, no `arguments` and no declaration in between is
disguised. -/
theorem eachElement_holdsElement_iff {source : Text} {n : Node}
    (hn : parse source = .ok n) {r : Rewrite}
    (hr : r ∈ eachElement.rewrites context (.ofProgram n)) :
    ∃ callback params, VisitsWith r.site callback params r.new
      ∧ (callback.unparen.is .arrowFunction = true
        ∨ callback.unparen.thisReferences = []
        ∨ ∃ index element, params = [index, element]
          ∧ callback.unparen.isWritten element.code = false
          ∧ (∀ t ∈ callback.unparen.thisReferences,
              t.bindingScope? element.code = some callback.unparen)
          ∧ (callback.unparen.HoldsElement element ↔ callback.unparen.IsOpen element)) := by
  have hrule : eachElement ∈ Registry.builtin.rules := by simp [Registry.builtin]
  obtain ⟨sweeps, haction, s, hs, hs', k, w, p, hstep, hkind⟩ :=
    Rule.exists_step_of_mem_rewrites hrule (parse_sound hn) hr
  obtain ⟨callback, params, hv⟩ := eachElement_visitsElements hr
  refine ⟨callback, params, hv.visitsWith, ?_⟩
  rcases namesThis_of_visitorParameters? hv.parameters with harrow | hnone
    | ⟨index, element, rfl, hnames⟩
  · exact Or.inl harrow
  · exact Or.inr (Or.inl hnone)
  · refine Or.inr (Or.inr ⟨index, element, rfl, (namesThis_iff.1 hnames).1, ?_⟩)
    have hid : w.program.Identified :=
      Node.identified_of_ids hstep.sound.isSome hstep.sound.nodup
    have hroot : w.program.is .program = true := by
      rw [Node.is, hkind]
      exact parse_program hn
    have hplaced : r.site.Placed := (hstep.sound.stands hstep.mem).placed
    obtain ⟨m, name, -, hm, -, -⟩ := hv.factory
    have hcall : r.site.is .callExpression = true := by
      refine is_callExpression_of_calledMember? (hstep.sound.stands hstep.mem).node ?_ hm
      rcases List.mem_cons.1 hstep.symbol with rfl | hsymbol
      · exact Or.inl hstep.kind
      · exact Or.inr (List.mem_singleton.1 hsymbol ▸ hstep.kind)
    have hf : callback.unparen ∈ (top w.program).walk := mem_walk_trans hstep.mem
      (mem_walk_trans (mem_walk_of_mem_arguments (by
        rw [hv.arguments]; exact List.mem_singleton.2 rfl)) (unparen_mem_walk callback))
    exact ⟨fun t ht => bindingScope?_of_namesThis hid hf hnames ht,
      holdsElement_iff hid hroot hf hnames (hv.not_hasDynamicScope hplaced hcall)
        hv.visitsWith.plain⟩

/-- A visitor whose parameter is declared once. -/
theorem eachElement_holdsElement_in_visitor :
    ∃ n r, parse (Text.ofString "$(\".x\").each(function (i, el) \x7b this.id = i; \x7d);")
        = .ok n
      ∧ r ∈ eachElement.rewrites .default (.ofProgram n)
      ∧ ∃ callback params, VisitsWith r.site callback params r.new
        ∧ (callback.unparen.is .arrowFunction = true
          ∨ callback.unparen.thisReferences = []
          ∨ ∃ index element, params = [index, element]
            ∧ callback.unparen.isWritten element.code = false
            ∧ (∀ t ∈ callback.unparen.thisReferences,
                t.bindingScope? element.code = some callback.unparen)
            ∧ (callback.unparen.HoldsElement element ↔ callback.unparen.IsOpen element)) := by
  obtain ⟨n, hn, h⟩ := exists_of_parse_any
    (Text.ofString "$(\".x\").each(function (i, el) \x7b this.id = i; \x7d);")
    (fun n => !(eachElement.rewrites .default (.ofProgram n)).isEmpty)
    (by decide +kernel)
  obtain ⟨r, hr⟩ := List.exists_mem_of_ne_nil
    (eachElement.rewrites .default (.ofProgram n)) (by simpa using h)
  exact ⟨n, r, hn, hr, eachElement_holdsElement_iff hn hr⟩

/-- A visitor that declares its parameter again and gives it another value
before it says `this`. -/
theorem eachElement_names_redeclared_parameter :
    ∃ n r callback index element x, parse (Text.ofString
        "$(\".x\").each(function (i, el) \x7b var el = 1; this.id = i; \x7d);") = .ok n
      ∧ r ∈ eachElement.rewrites .default (.ofProgram n)
      ∧ VisitsWith r.site callback [index, element] r.new
      ∧ callback.unparen.is .arrowFunction = false
      ∧ callback.unparen.thisReferences ≠ []
      ∧ x ∈ callback.unparen.varsOf ∧ x.code = element.code ∧ x ≠ element
      ∧ ¬ callback.unparen.HoldsElement element
      ∧ (eachElement.apply .default (.ofProgram n)).1.render = Text.ofString
        "document.querySelectorAll(\".x\").forEach(function (el, i) \x7b var el = 1; el.id = i; \x7d);" := by
  obtain ⟨n, hn, h⟩ := exists_of_parse_any (Text.ofString
      "$(\".x\").each(function (i, el) \x7b var el = 1; this.id = i; \x7d);")
    (fun n => (eachElement.rewrites .default (.ofProgram n)).any (fun r =>
        r.site.arguments.getLast?.any fun callback =>
          !callback.unparen.is .arrowFunction
          && !callback.unparen.thisReferences.isEmpty
          && callback.unparen.simpleParameters?.any fun params =>
            params[1]?.any fun element => callback.unparen.varsOf.any fun x =>
              x.code == element.code && !x.same element)
      && (eachElement.apply .default (.ofProgram n)).1.render == Text.ofString
        "document.querySelectorAll(\".x\").forEach(function (el, i) \x7b var el = 1; el.id = i; \x7d);")
    (by decide +kernel)
  simp only [Bool.and_eq_true, Option.any_eq_true, List.any_eq_true, beq_iff_eq,
    Bool.not_eq_true', List.isEmpty_eq_false_iff] at h
  obtain ⟨⟨r, hr, callback, hlast, ⟨harrow, hthis⟩, params, hparams, element, helement, x, hx,
    hcode, hne⟩, hrender⟩ := h
  obtain ⟨callback', params', hv⟩ := eachElement_visits hr
  obtain rfl : callback = callback' := Option.some.inj (hlast.symm.trans hv.last)
  obtain rfl : params = params' := Option.some.inj (hparams.symm.trans hv.simple)
  have hx_ne : x ≠ element := by
    rintro rfl
    rw [same, beq_self_eq_true] at hne
    cases hne
  obtain rfl | ⟨index, element', rfl⟩ := hv.pair
  · cases helement
  · obtain rfl : element' = element := by simpa using helement
    refine ⟨n, r, callback, index, element', x, hn, hr, hv, harrow, hthis, hx, hcode, hx_ne,
      fun hholds => hx_ne (hholds.sole x ?_ (congrArg Text.spelledName hcode)), hrender⟩
    exact List.mem_append_right _ (List.mem_append_left _ hx)

end Rules

end Codemod
