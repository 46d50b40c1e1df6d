/-
The callers of a visitor.

A visitor whose parameters have been exchanged must be called by the new
`forEach` and by nobody else. A function written out as an argument can
be got at from two sides besides: by the own name of a function
expression, and through the `arguments` of the function, which carry the
callee. The first lies inside the function, where nobody looks for it;
the second is looked for as the bare word (`VisitsWith.plain`).

Main statement: `Rule.visitor_has_no_other_use_iff`. The exchange is safe
just when the function does not mention its own name, nor `arguments` in
a disguise. `Rules.each_exchanges_recursive_visitor` is a function that
calls itself.
-/
import Codemod.Proofs.Scope.Constancy
import Codemod.Proofs.Scope.Resolution
import Codemod.Proofs.Wrapper.Live

namespace Codemod

namespace Cursor

variable {f u : Cursor}

/-- The place uses a name. -/
def usesName (u : Cursor) : Bool :=
  u.isAny [.identifier, .shorthandPropertyIdentifier]

/-- A use of the name that a function expression has for itself. -/
structure IsOwnName (f u : Cursor) : Prop where
  kind : u.usesName = true
  means : ∃ t ∈ f.ownNames, u.Denotes t.code
    ∧ ∃ x, u.lexical? t.code = some (f, [x]) ∧ x.same t = true

/-- A use of the `arguments` that a call of the function has. -/
structure IsOwnArguments (f u : Cursor) : Prop where
  binds : f.is .arrowFunction = false
  own : u ∈ f.ownNodes true
  kind : u.usesName = true
  denotes : u.Denotes (Text.ofString "arguments")

/-- Nowhere in the file the function can be got at but where it is
written. -/
def HasNoOtherUse (f : Cursor) : Prop :=
  ∀ u ∈ f.root.walk, ¬ f.IsOwnName u ∧ ¬ f.IsOwnArguments u

/-- The own name of a function means the function only inside it. -/
theorem IsOwnName.mem_walk (h : f.IsOwnName u) (hu : u ∈ f.root.walk) :
    u ∈ f.walk := by
  obtain ⟨t, -, -, x, hlex, -⟩ := h.means
  have hplaced : u.Placed := (mem_walk_top.1 hu).1
  exact (hplaced.of_mem_ancestors (mem_of_lexicalIn hlex)).2.2

theorem IsOwnArguments.mem_walk (h : f.IsOwnArguments u) : u ∈ f.walk :=
  (mem_walkBelowUntil.1 h.own).mem_walk

end Cursor

open Cursor

variable {context : RuleContext} {w : Workspace} {r : Rewrite} {c callback : Cursor}
  {params : List Cursor} {new : Node}

/-- A call of a visitor is rewritten: the visitor takes no parameters, or
two that are exchanged, and does not say `arguments`. -/
structure VisitsWith (c callback : Cursor) (params : List Cursor) (new : Node) :
    Prop where
  last : c.arguments.getLast? = some callback
  literal : callback.unparen.node.isFunctionLiteral = true
  simple : callback.unparen.simpleParameters? = some params
  pair : params = [] ∨ ∃ index element, params = [index, element]
  plain : callback.unparen.is .arrowFunction = true
    ∨ callback.unparen.usesArguments = false
  written : ∃ target, new = Build.methodCall target "forEach"
    [Rules.visitor callback callback.unparen params]

namespace Cursor

variable {f : Cursor}

theorem usesArguments_of_usesThis (h : f.usesThis = false) :
    f.usesArguments = false := by
  rw [Bool.eq_false_iff] at h ⊢
  intro ha
  obtain ⟨u, hu, hname⟩ := List.any_eq_true.1 ha
  exact h (List.any_eq_true.2 ⟨u, hu, by rw [hname, Bool.or_true]⟩)

theorem thisReferences_of_usesThis (h : f.usesThis = false) :
    f.thisReferences = [] := by
  rw [thisReferences, List.filter_eq_nil_iff]
  intro u hu hthis
  rw [Bool.eq_false_iff] at h
  exact h (List.any_eq_true.2 ⟨u, hu, by rw [hthis, Bool.true_or]⟩)

theorem thisReferences_of_isPlainVisitor (h : f.isPlainVisitor = true) :
    (if f.is .arrowFunction then [] else f.thisReferences) = [] := by
  rw [isPlainVisitor, Bool.and_eq_true, Bool.or_eq_true, Bool.not_eq_true'] at h
  rcases h.2 with harrow | hthis
  · rw [if_pos harrow]
  · rw [thisReferences_of_usesThis hthis, ite_self]

theorem plain_of_isPlainVisitor (h : f.isPlainVisitor = true) :
    f.is .arrowFunction = true ∨ f.usesArguments = false := by
  rw [isPlainVisitor, Bool.and_eq_true, Bool.or_eq_true, Bool.not_eq_true'] at h
  exact h.2.imp_right usesArguments_of_usesThis

/-- A visitor of elements takes no parameters or two, and does not say
`arguments`. -/
theorem visitorParameters?_spec (h : f.visitorParameters? = some params) :
    (params = [] ∨ ∃ index element, params = [index, element])
      ∧ (f.is .arrowFunction = true ∨ f.usesArguments = false) := by
  have hsimple := Rules.simpleParameters?_of_visitorParameters? h
  simp only [visitorParameters?, hsimple] at h
  obtain ⟨-, h⟩ := Option.ite_none_left_eq_some.1 h
  obtain ⟨hlen, h⟩ := Option.ite_none_left_eq_some.1 h
  constructor
  · have hlen : params.length = 0 ∨ params.length = 2 := by
      simp only [Bool.or_eq_true, not_or, Bool.not_eq_true, Bool.not_eq_false',
        beq_iff_eq] at hlen
      exact hlen.1
    exact hlen.imp List.length_eq_zero_iff.1 List.length_eq_two.1
  · split at h
    · next harrow => exact Or.inl harrow
    · obtain ⟨hargs, -⟩ := Option.ite_none_left_eq_some.1 h
      exact Or.inr (by simpa using hargs)

end Cursor

/-- A visit to what a selector finds is rewritten. -/
structure VisitsElements (context : RuleContext) (c callback : Cursor)
    (params : List Cursor) (new : Node) : Prop where
  factory : ∃ m name o, c.calledMember? = some (m, name) ∧ m.child? .object = some o
    ∧ o.unparen.isFactoryCall context.factoryNames = .ok true
  arguments : c.arguments = [callback]
  literal : callback.unparen.node.isFunctionLiteral = true
  parameters : callback.unparen.visitorParameters? = some params
  written : ∃ selector : Cursor, new = Build.methodCall (Rules.queryAll selector.node)
    "forEach" [Rules.visitor callback callback.unparen params]

theorem VisitsElements.visitsWith (h : VisitsElements context c callback params new) :
    VisitsWith c callback params new := by
  obtain ⟨hpair, hplain⟩ := visitorParameters?_spec h.parameters
  obtain ⟨selector, hnew⟩ := h.written
  refine ⟨?_, h.literal, Rules.simpleParameters?_of_visitorParameters? h.parameters,
    hpair, hplain, Rules.queryAll selector.node, hnew⟩
  rw [h.arguments]
  rfl

namespace Sweep

variable {names : List String}

theorem ofMethods_spec
    {f : RuleContext → Cursor → Cursor → Text → List Cursor → Check (Option Node)}
    (h : (Sweep.ofMethods names f).replacement context c = .ok (some new)) :
    ∃ m name, c.calledMember? = some (m, name)
      ∧ f context c m name c.arguments = .ok (some new) := by
  simp only [Sweep.ofMethods] at h
  split at h
  · next m name hm =>
      split at h
      · cases h
      · exact ⟨m, name, hm, h⟩
  · cases h

theorem ofStatics_spec {f : RuleContext → Cursor → List Cursor → Check (Option Node)}
    (h : (Sweep.ofStatics names f).replacement context c = .ok (some new)) :
    f context c c.arguments = .ok (some new) := by
  obtain ⟨m, name, -, h⟩ := ofMethods_spec h
  split at h
  · simp [pure_eq_ok] at h
  · next o ho =>
      obtain ⟨b, -, h⟩ := bind_eq_ok.1 h
      cases b with
      | false => simp [pure_eq_ok] at h
      | true => exact h

end Sweep

namespace Rules

theorem each_visits (h : r ∈ each.rewrites context w) :
    ∃ callback params, VisitsWith r.site callback params r.new := by
  obtain ⟨s, hs, h⟩ := replacement_of_mem_rewritesOfSweeps h
  obtain rfl := List.mem_singleton.1 hs
  replace h := Sweep.ofStatics_spec h
  split at h
  · next array callback hargs =>
      obtain ⟨hguard, h⟩ := unless_eq_ok.1 h
      obtain ⟨hplain, h⟩ := unless_eq_ok.1 h
      simp only [Bool.or_eq_false_iff, Bool.not_eq_false'] at hguard hplain
      have hlast : r.site.arguments.getLast? = some callback := by rw [hargs]; rfl
      split at h
      · next hp =>
          refine ⟨callback, [], hlast, hguard.2, hp, Or.inl rfl,
            plain_of_isPlainVisitor hplain, array.node, ?_⟩
          exact (some_eq_of_ok h).symm
      · next index value hp =>
          refine ⟨callback, [index, value], hlast, hguard.2, hp,
            Or.inr ⟨index, value, rfl⟩, plain_of_isPlainVisitor hplain,
            array.node, ?_⟩
          rw [visitor]
          simp only [thisReferences_of_isPlainVisitor hplain, List.foldl_nil]
          exact (some_eq_of_ok h).symm
      · simp [pure_eq_ok] at h
  · simp [pure_eq_ok] at h

theorem eachElement_visitsElements (h : r ∈ eachElement.rewrites context w) :
    ∃ callback params, VisitsElements context r.site callback params r.new := by
  obtain ⟨s, hs, h⟩ := replacement_of_mem_rewritesOfSweeps h
  obtain rfl := List.mem_singleton.1 hs
  obtain ⟨m, name, hm, h⟩ := Sweep.ofMethods_spec h
  split at h
  · next callback receiver hargs hreceiver =>
      obtain ⟨hguard, h⟩ := unless_eq_ok.1 h
      obtain ⟨b, hlive, h⟩ := bind_eq_ok.1 h
      obtain ⟨hb, h⟩ := unless_eq_ok.1 h
      rw [Bool.not_eq_false'] at hb
      rw [hb] at hlive
      split at h
      · simp [pure_eq_ok] at h
      · next selector hselector =>
          obtain ⟨v, -, h⟩ := bind_eq_ok.1 h
          split at h
          · simp [pure_eq_ok] at h
          · obtain ⟨-, h⟩ := unless_eq_ok.1 h
            obtain ⟨b, -, h⟩ := bind_eq_ok.1 h
            obtain ⟨-, h⟩ := unless_eq_ok.1 h
            dsimp only at h
            split at h
            · simp [pure_eq_ok] at h
            · next params hparams =>
                simp only [Bool.or_eq_false_iff, Bool.not_eq_false'] at hguard
                refine ⟨callback, params, ?_, hargs, hguard.2, hparams, selector,
                  (some_eq_of_ok h).symm⟩
                obtain ⟨o, ho, rfl⟩ := inner?_eq_some.1 hreceiver
                exact ⟨m, name, o, hm, ho, hlive⟩
  · simp [pure_eq_ok] at h

theorem eachElement_visits (h : r ∈ eachElement.rewrites context w) :
    ∃ callback params, VisitsWith r.site callback params r.new := by
  obtain ⟨callback, params, hv⟩ := eachElement_visitsElements h
  exact ⟨callback, params, hv.visitsWith⟩

end Rules

/-- Where a function does not say `arguments`, only another spelling of the
word gets at them. -/
theorem Cursor.not_isOwnArguments_iff {f : Cursor}
    (h : f.is .arrowFunction = true ∨ f.usesArguments = false) :
    (∀ u ∈ f.walk, ¬ f.IsOwnArguments u)
      ↔ ∀ u ∈ f.walk, f.IsOwnArguments u → u.isArgumentsName = true := by
  constructor
  · exact fun hno u hu hown => absurd hown (hno u hu)
  · intro hargs u hu hown
    rcases h with harrow | huses
    · rw [hown.binds] at harrow
      cases harrow
    · rw [Bool.eq_false_iff] at huses
      exact huses (List.any_eq_true.2 ⟨u, hown.own, hargs u hu hown⟩)

/-- A function that does not say `arguments` is got at just where it or
its arguments go by a name. -/
theorem Cursor.hasNoOtherUse_iff {f : Cursor} (hf : f.Placed)
    (h : f.is .arrowFunction = true ∨ f.usesArguments = false) :
    f.HasNoOtherUse ↔ (∀ u ∈ f.walk, ¬ f.IsOwnName u)
      ∧ ∀ u ∈ f.walk, f.IsOwnArguments u → u.isArgumentsName = true := by
  rw [← not_isOwnArguments_iff h]
  constructor
  · intro hno
    have hroot {u : Cursor} (hu : u ∈ f.walk) : u ∈ f.root.walk :=
      mem_walk_trans hf.mem_walk_root hu
    exact ⟨fun u hu => (hno u (hroot hu)).1, fun u hu => (hno u (hroot hu)).2⟩
  · rintro ⟨hname, hargs⟩ u hu
    exact ⟨fun hown => hname u (hown.mem_walk hu) hown,
      fun hown => hargs u hown.mem_walk hown⟩

/-- Each rewrite of a call that visits hands its callback, a function
written out, on to `forEach`. Where two parameters have been exchanged,
the function has no other use in the file just when it mentions nowhere
its own name, and its `arguments` by no other spelling than the bare
word. -/
theorem Rule.visitor_has_no_other_use_iff {rule : Rule}
    (h : rule = Rules.each ∨ rule = Rules.eachElement) {source : Text} {n : Node}
    (hn : parse source = .ok n) (hr : r ∈ rule.rewrites context (.ofProgram n)) :
    ∃ callback params, VisitsWith r.site callback params r.new
      ∧ (callback.unparen.HasNoOtherUse ↔
        (∀ u ∈ callback.unparen.walk, ¬ callback.unparen.IsOwnName u)
          ∧ ∀ u ∈ callback.unparen.walk, callback.unparen.IsOwnArguments u →
            u.isArgumentsName = true) := by
  have hsite : r.site.Placed := by
    rcases h with rfl | rfl
    · exact (Rule.through_live_of_mem_rewrites (by simp [Registry.builtin]) rfl
        (parse_sound hn) hr).1
    · exact (Rule.through_live_of_mem_rewrites (by simp [Registry.builtin]) rfl
        (parse_sound hn) hr).1
  have hvisits : ∃ callback params, VisitsWith r.site callback params r.new := by
    rcases h with rfl | rfl
    · exact Rules.each_visits hr
    · exact Rules.eachElement_visits hr
  obtain ⟨callback, params, hv⟩ := hvisits
  have hcallback : callback.unparen ∈ r.site.walk :=
    mem_walk_trans (mem_walk_of_mem_arguments (List.mem_of_getLast? hv.last))
      (unparen_mem_walk callback)
  exact ⟨callback, params, hv, hasNoOtherUse_iff (hsite.of_mem_walk hcallback) hv.plain⟩

namespace Rules

/-- A visitor that only names its parameters. -/
theorem visitor_of_elements_has_no_other_use :
    ∃ n r, parse (Text.ofString
        "$(\".x\").each(function f(i, el) \x7b this.id = i; \x7d);") = .ok n
      ∧ r ∈ eachElement.rewrites .default (.ofProgram n)
      ∧ ∃ callback params, VisitsWith r.site callback params r.new
        ∧ (callback.unparen.HasNoOtherUse ↔
          (∀ u ∈ callback.unparen.walk, ¬ callback.unparen.IsOwnName u)
            ∧ ∀ u ∈ callback.unparen.walk, callback.unparen.IsOwnArguments u →
              u.isArgumentsName = true) := by
  obtain ⟨n, hn, h⟩ := exists_of_parse_any (Text.ofString
      "$(\".x\").each(function f(i, el) \x7b this.id = i; \x7d);")
    (fun n => !(eachElement.rewrites .default (.ofProgram n)).isEmpty)
    (by decide +kernel)
  obtain ⟨r, hr⟩ := List.exists_mem_of_ne_nil
    (eachElement.rewrites .default (.ofProgram n)) (by simpa using h)
  exact ⟨n, r, hn, hr, Rule.visitor_has_no_other_use_iff (Or.inr rfl) hn hr⟩

/-- A visitor that calls itself has its parameters exchanged, and calls
itself with index and value in the order they had before. -/
theorem each_exchanges_recursive_visitor :
    ∃ n f u, parse (Text.ofString
        "$.each([1], function f(i, v) \x7b f(i, v); \x7d);") = .ok n
      ∧ f ∈ (top n).walk ∧ u ∈ f.walk ∧ f.IsOwnName u
      ∧ (each.apply .default (.ofProgram n)).1.render
        = Text.ofString "[1].forEach(function f(v, i) \x7b f(i, v); \x7d);" := by
  have h : holdsAt (Text.ofString
      "$.each([1], function f(i, v) \x7b f(i, v); \x7d);") [0, 0, 1, 3]
      (fun f => ((f.follow? [3, 1, 0, 0]).any fun u => u.usesName
          && f.ownNames.any fun t => u.code.spelledName == t.code.spelledName
            && (u.lexical? t.code).any fun (s, xs) => s.same f
              && xs.length == 1 && xs.all fun x => x.same t)
        && (each.apply .default (.ofProgram f.root.node)).1.render
          == Text.ofString "[1].forEach(function f(v, i) \x7b f(i, v); \x7d);")
      = true := by decide +kernel
  obtain ⟨n, f, hn, hf, ht⟩ := exists_of_holdsAt h
  rw [(mem_walk_top.1 hf).2] at ht
  simp only [Bool.and_eq_true, Option.any_eq_true, List.any_eq_true, beq_iff_eq] at ht
  obtain ⟨⟨u, hu, hk, t, ht, hden, ⟨s, xs⟩, hlex, ⟨hs, hlen⟩, hxs⟩, hrender⟩ := ht
  obtain ⟨x, rfl⟩ := List.length_eq_one_iff.1 hlen
  have hu := mem_walk_of_follow? hu
  have hplaced : u.Placed := (mem_walk_top.1 (mem_walk_trans hf hu)).1
  obtain ⟨hsp, hroot, -⟩ := hplaced.of_mem_ancestors (mem_of_lexicalIn hlex)
  have hsf : s = f := eq_of_same (parse_identified hn)
    (mem_walk_top.2 ⟨hsp, hroot.trans (mem_walk_top.1 (mem_walk_trans hf hu)).2⟩) hf hs
  subst hsf
  exact ⟨n, s, u, hn, hf, hu, ⟨hk, t, ht, hden, x, hlex, by simpa using hxs⟩, hrender⟩

end Rules

end Codemod
