/-
The owner of `this`.

`this` belongs to the nearest construct around it that gives it a value:
the function, other than an arrow function, in whose parameters or body
it stands, the initializer of a field, a static block, or the program
(`Cursor.owner?`). The key of a method is worked out before there is a
method, and belongs outside it.

The analysis searches for the owner outwards (`thisScope?`) and inwards
(`thisReferences`). Both searches end at functions alone, and at all that
stands in them. `strays?` is the first construct on the way out about
which such a search and the language disagree: a field or a static block
that the search passes, or a function that it enters through a key.
Without one the answers agree, with one they never do
(`owner?_cases`).

Main statement: `this_owner_iff`. Two places with the same `this` to the
analysis have the same owner just when they stray at the same construct,
and the `this` listed for a function are its own just when none of them,
and none of its own, strays.
-/
import Codemod.Analysis.Alias
import Codemod.Rule.Callback
import Codemod.Proofs.Scope.Resolution

namespace Codemod.Cursor

variable {c f q t u : Cursor} {stops : Cursor → Bool}

-- ================================================= what the language says

/-- The construct gives `this` a value for what stands in one of its
children. -/
def bindsThis (c : Cursor) (part : Node) : Bool :=
  if c.is .program then true
  else if c.isFunction then
    !c.is .arrowFunction
      && (part.role == some .parameters || part.role == some .body)
  else if c.is .fieldDefinition then part.role == some .value
  else c.is .classStaticBlock

/-- The nearest of the constructs around a node that gives `this` a value
there. -/
def ownerIn : Node → List (Node × Nat) → Option Cursor
  | _, [] => none
  | n, (p, _) :: up =>
    if bindsThis ⟨p, up⟩ n then some ⟨p, up⟩ else ownerIn p up

/-- The construct that a `this` written here belongs to. -/
def owner? (c : Cursor) : Option Cursor := ownerIn c.node c.above

-- ============================================== what the analysis looks for

/-- The function has a `this` of its own. -/
def ownsThis (c : Cursor) : Bool := c.isFunction && !c.is .arrowFunction

/-- The search outwards ends here. -/
def endsOutwards (c : Cursor) : Bool := c.is .program || c.ownsThis

/-- The nearest of the constructs around a node about which the language
and a search that ends at certain nodes disagree, before either has found
an owner. -/
def straysIn (stops : Cursor → Bool) : Node → List (Node × Nat) → Option Cursor
  | _, [] => none
  | n, (p, _) :: up =>
    if bindsThis ⟨p, up⟩ n != stops ⟨p, up⟩ then some ⟨p, up⟩
    else if stops ⟨p, up⟩ then none
    else straysIn stops p up

/-- The construct at which the search for the owner of `this` goes
astray. -/
def strays? (stops : Cursor → Bool) (c : Cursor) : Option Cursor :=
  straysIn stops c.node c.above

/-- The `this` listed for a function are those within reach of it. -/
theorem mem_thisReferences :
    t ∈ f.thisReferences ↔ Reaches ownsThis f t ∧ t.is .thisExpr = true := by
  have hstop : (fun d : Cursor =>
      d.node.isFunction && !(true && d.node.is .arrowFunction)) = ownsThis := by
    funext d
    rw [Bool.true_and]
    rfl
  rw [thisReferences, List.mem_filter, ownNodes, mem_walkBelowUntil, hstop]

/-- Looking inwards from a function and outwards from its `this` gives
the same. -/
theorem mem_thisReferences_iff (ht : t.Placed) (hf : f.ownsThis = true)
    (hk : t.is .thisExpr = true) :
    t ∈ f.thisReferences ↔ t.ancestors.find? ownsThis = some f := by
  rw [mem_thisReferences, find?_ancestors_eq_some_iff ht]
  simp [hf, hk]

/-- The search outwards is what stability asks for. -/
theorem isStableAt_this (hk : t.is .thisExpr = true) :
    t.isStableAt u = .ok (sameScope t.thisScope? u.thisScope?) := by
  have hkind := Node.is_iff.1 hk
  have hparen : t.is .parenthesizedExpression = false :=
    Node.is_false_of_kind hkind (by decide)
  have hu : t.unparen = t := unparen_of_not_parens hparen
  have hlit : t.node.isLiteral = .ok false := by
    simp [Node.isLiteral, Node.isStringLiteral, Node.stringValue, Node.isAny, Node.is,
      hkind, bind, Except.bind, pure, Except.pure]
  simp only [isStableAt, hu, hlit, hk]
  rfl

/-- In an identified tree searches that end at nodes of one identity end
at one place. -/
theorem thisScope?_eq_of_sameScope {n : Node} (hn : n.Identified)
    (ht : t ∈ (top n).walk) (hu : u ∈ (top n).walk)
    (h : sameScope t.thisScope? u.thisScope? = true) :
    t.thisScope? = u.thisScope? := by
  have hmem : ∀ {c s : Cursor}, c ∈ (top n).walk → c.thisScope? = some s →
      s ∈ (top n).walk := by
    intro c s hc hs
    obtain ⟨hp, hr⟩ := mem_walk_top.1 hc
    obtain ⟨hsp, hsr, -⟩ := hp.of_mem_ancestors (List.mem_of_find?_eq_some hs)
    exact mem_walk_top.2 ⟨hsp, hsr.trans hr⟩
  cases ha : t.thisScope? with
  | none =>
      cases hb : u.thisScope? with
      | none => rfl
      | some b => rw [ha, hb] at h; cases h
  | some a =>
      cases hb : u.thisScope? with
      | none => rw [ha, hb] at h; cases h
      | some b =>
          rw [ha, hb] at h
          rw [eq_of_same hn (hmem ht ha) (hmem hu hb) h]

-- ========================================================== going astray

theorem ownerIn_mem_ancestorsIn {n : Node} {above : List (Node × Nat)}
    (h : ownerIn n above = some q) : q ∈ ancestorsIn above := by
  induction above generalizing n with
  | nil => cases h
  | cons pi up ih =>
      obtain ⟨p, i⟩ := pi
      rw [ownerIn] at h
      split at h
      · obtain rfl := Option.some.inj h
        exact List.mem_cons_self
      · exact List.mem_cons_of_mem _ (ih h)

/-- A search that does not go astray finds the owner. One that does either
passes the owner, or ends too early: the owner is that of the construct
where it ends. -/
theorem ownerIn_cases (stops : Cursor → Bool) (n : Node) (above : List (Node × Nat)) :
    (straysIn stops n above = none
        ∧ ownerIn n above = (ancestorsIn above).find? stops)
      ∨ ∃ q, straysIn stops n above = some q
        ∧ ((ownerIn n above = some q
            ∧ (ancestorsIn above).find? stops = q.ancestors.find? stops)
          ∨ (ownerIn n above = q.owner?
            ∧ (ancestorsIn above).find? stops = some q)) := by
  induction above generalizing n with
  | nil => exact Or.inl ⟨rfl, rfl⟩
  | cons pi up ih =>
      obtain ⟨p, i⟩ := pi
      rw [straysIn, ownerIn, ancestorsIn, List.find?_cons]
      cases hb : bindsThis ⟨p, up⟩ n with
      | true =>
          cases hs : stops ⟨p, up⟩ with
          | true => exact Or.inl ⟨by simp, by simp⟩
          | false => exact Or.inr ⟨⟨p, up⟩, by simp, Or.inl ⟨by simp, rfl⟩⟩
      | false =>
          cases hs : stops ⟨p, up⟩ with
          | true => exact Or.inr ⟨⟨p, up⟩, by simp, Or.inr ⟨by simp [owner?], rfl⟩⟩
          | false => simpa using ih p

theorem owner?_cases (stops : Cursor → Bool) (c : Cursor) :
    (c.strays? stops = none ∧ c.owner? = c.ancestors.find? stops)
      ∨ ∃ q, c.strays? stops = some q
        ∧ ((c.owner? = some q ∧ c.ancestors.find? stops = q.ancestors.find? stops)
          ∨ (c.owner? = q.owner? ∧ c.ancestors.find? stops = some q)) :=
  ownerIn_cases stops c.node c.above

/-- A construct is not its own owner. -/
theorem owner?_ne_self (q : Cursor) : q.owner? ≠ some q := fun h =>
  ne_of_mem_ancestors (ownerIn_mem_ancestorsIn h) rfl

/-- Nor does a search from it end at it. -/
theorem find?_ancestors_ne_self (q : Cursor) : q.ancestors.find? stops ≠ some q :=
  fun h => ne_of_mem_ancestors (List.mem_of_find?_eq_some h) rfl

/-- What owns a construct does not look for its owner there. -/
theorem find?_ancestors_ne_of_owner? (h : c.owner? = some q) :
    q.ancestors.find? stops ≠ some c := by
  intro hc
  have hup := length_above_lt_of_mem_ancestors (ownerIn_mem_ancestorsIn h)
  have hdown := length_above_lt_of_mem_ancestors (List.mem_of_find?_eq_some hc)
  omega

/-- Where the search does not go astray, and only there, it finds the
owner. -/
theorem strays?_eq_none_iff :
    c.strays? stops = none ↔ c.owner? = c.ancestors.find? stops := by
  rcases owner?_cases stops c with ⟨hs, ho⟩ | ⟨q, hs, ⟨ho, hf⟩ | ⟨ho, hf⟩⟩
  · simp [hs, ho]
  · rw [hs, ho, hf]
    simpa using (find?_ancestors_ne_self q).symm
  · rw [hs, ho, hf]
    simpa using owner?_ne_self q

/-- Searches that end at the same place started with the same owner just
when they went astray at the same construct, or neither did. -/
theorem owner?_eq_iff (h : t.ancestors.find? stops = u.ancestors.find? stops) :
    t.owner? = u.owner? ↔ t.strays? stops = u.strays? stops := by
  rcases owner?_cases stops t with ⟨hs, ho⟩ | ⟨q, hs, ⟨ho, hf⟩ | ⟨ho, hf⟩⟩
  · rw [hs, eq_comm (b := u.strays? stops), strays?_eq_none_iff, ho, h, eq_comm]
  · -- the search from `t` passes its owner `q`
    rcases owner?_cases stops u with ⟨hs', ho'⟩ | ⟨q', hs', ⟨ho', -⟩ | ⟨ho', hf'⟩⟩
    · rw [hs, hs', ho, ho', ← h, hf]
      simpa using (find?_ancestors_ne_self q).symm
    · rw [hs, hs', ho, ho']
    · have hne : q ≠ q' := by
        rintro rfl
        exact find?_ancestors_ne_self q (by rw [← hf, h, hf'])
      rw [hs, hs', ho, ho']
      refine iff_of_false (fun heq => ?_) (by simpa using hne)
      exact find?_ancestors_ne_of_owner? heq.symm (by rw [← hf, h, hf'])
  · -- the search from `t` ends too early, at `q`
    rcases owner?_cases stops u with ⟨hs', ho'⟩ | ⟨q', hs', ⟨ho', hf'⟩ | ⟨ho', hf'⟩⟩
    · rw [hs, hs', ho, ho', ← h, hf]
      simpa using owner?_ne_self q
    · have hne : q ≠ q' := by
        rintro rfl
        exact find?_ancestors_ne_self q (by rw [← hf', ← h, hf])
      rw [hs, hs', ho, ho']
      refine iff_of_false (fun heq => ?_) (by simpa using hne)
      exact find?_ancestors_ne_of_owner? heq (by rw [← hf', ← h, hf])
    · have hq : q = q' := by simpa [hf, hf'] using h
      rw [hs, hs', ho, ho', hq]
      simp

/-- A search goes astray at a construct that gives `this` a value for the
part it comes from and does not stop it, or the other way round. -/
theorem exists_of_strays? (hc : c.Placed) (h : c.strays? stops = some q) :
    ∃ d ∈ q.children, c ∈ d.walk ∧ q.bindsThis d.node ≠ stops q := by
  obtain ⟨n, above⟩ := c
  induction above generalizing n with
  | nil => cases h
  | cons pi up ih =>
      obtain ⟨p, i⟩ := pi
      have hmem : (⟨n, (p, i) :: up⟩ : Cursor) ∈ (⟨p, up⟩ : Cursor).children :=
        mem_children.2 ⟨i, hc.1, rfl⟩
      rw [strays?, straysIn] at h
      split at h
      · next hne =>
          obtain rfl := Option.some.inj h
          exact ⟨_, hmem, self_mem_walk _, by simpa using hne⟩
      · split at h
        · cases h
        · obtain ⟨d, hd, hwalk, hne⟩ := ih p hc.2 h
          exact ⟨d, hd, mem_walk_of_mem_children hwalk hmem, hne⟩

/-- The search outwards goes astray at a field initializer or a static
block, which it passes, and at a function in whose parameters and body it
did not start. -/
theorem kind_of_strays? (hc : c.Placed) (h : c.strays? endsOutwards = some q) :
    ∃ d ∈ q.children, c ∈ d.walk
      ∧ (q.is .fieldDefinition = true ∧ d.node.role = some .value
        ∨ q.is .classStaticBlock = true
        ∨ q.ownsThis = true ∧ d.node.role ≠ some .parameters
          ∧ d.node.role ≠ some .body) := by
  obtain ⟨d, hd, hwalk, hne⟩ := exists_of_strays? hc h
  refine ⟨d, hd, hwalk, ?_⟩
  rw [bindsThis, endsOutwards, ownsThis] at hne
  rw [ownsThis]
  cases hp : q.is .program with
  | true => simp [hp] at hne
  | false =>
      cases hf : q.isFunction with
      | true =>
          cases ha : q.is .arrowFunction with
          | true => simp [hp, hf, ha] at hne
          | false => simpa [hp, hf, ha] using Or.inr (Or.inr hne)
      | false =>
          cases hfield : q.is .fieldDefinition with
          | true => exact Or.inl ⟨rfl, by simpa [hp, hf, hfield] using hne⟩
          | false => simpa [hp, hf, hfield] using hne

end Codemod.Cursor

namespace Codemod

open Cursor

/-- In a parsed program a `this` that is stable at a place has the same
owner there just when both searches went astray at the same construct, or
neither did. The `this` listed for a function other than an arrow function
are those it owns just when the search for none of either goes astray. A
search goes astray only at the initializer of a field, at a static block,
and at a function of which the `this` stands in the key. -/
theorem this_owner_iff {source : Text} {n : Node} (hn : parse source = .ok n) :
    (∀ t ∈ (top n).walk, t.is .thisExpr = true → ∀ u ∈ (top n).walk,
      t.isStableAt u = .ok true →
        (t.owner? = u.owner? ↔ t.strays? endsOutwards = u.strays? endsOutwards))
    ∧ (∀ f ∈ (top n).walk, f.isFunction = true → f.is .arrowFunction = false →
      ((∀ t ∈ (top n).walk, t.is .thisExpr = true →
          (t ∈ f.thisReferences ↔ t.owner? = some f))
        ↔ ∀ t ∈ (top n).walk, t.is .thisExpr = true →
          t ∈ f.thisReferences ∨ t.owner? = some f → t.strays? ownsThis = none))
    ∧ ∀ t ∈ (top n).walk, ∀ q, t.strays? endsOutwards = some q →
      ∃ d ∈ q.children, t ∈ d.walk
        ∧ (q.is .fieldDefinition = true ∧ d.node.role = some .value
          ∨ q.is .classStaticBlock = true
          ∨ q.ownsThis = true ∧ d.node.role ≠ some .parameters
            ∧ d.node.role ≠ some .body) := by
  refine ⟨fun t ht hk u hu hstable => ?stable, fun f _ hf harrow => ?listed,
    fun t ht q hq => kind_of_strays? (mem_walk_top.1 ht).1 hq⟩
  case stable =>
    rw [isStableAt_this hk, Except.ok.injEq] at hstable
    exact owner?_eq_iff (thisScope?_eq_of_sameScope (parse_identified hn) ht hu hstable)
  case listed =>
    have howns : f.ownsThis = true := by rw [ownsThis, hf, harrow]; rfl
    refine forall_congr' fun t => forall_congr' fun ht => forall_congr' fun hk => ?_
    rw [mem_thisReferences_iff (mem_walk_top.1 ht).1 howns hk, strays?_eq_none_iff]
    constructor
    · rintro h (hl | ho)
      · rw [h.1 hl, hl]
      · rw [ho, h.2 ho]
    · intro h
      constructor
      · intro hl
        rw [h (Or.inl hl), hl]
      · intro ho
        rw [← h (Or.inr ho), ho]

/-- An arrow function in a callback hands the `this` of the callback on,
and a method of its own keeps its `this` to itself. -/
theorem this_owner_in_callback :
    ∃ n f, parse (Text.ofString
        "f(function () \x7b this.id; g(() => this); g(\x7b m() \x7b this; \x7d \x7d); \x7d);")
        = .ok n ∧ f ∈ (top n).walk ∧ f.isFunction = true
      ∧ f.is .arrowFunction = false ∧ f.thisReferences.length = 2
      ∧ ∀ t ∈ (top n).walk, t.is .thisExpr = true →
        (t ∈ f.thisReferences ↔ t.owner? = some f) := by
  have h : holdsAt (Text.ofString
      "f(function () \x7b this.id; g(() => this); g(\x7b m() \x7b this; \x7d \x7d); \x7d);")
      [0, 0, 1, 1] (fun f => f.isFunction && !f.is .arrowFunction
        && f.thisReferences.length == 2
        && f.root.walk.all fun t => !t.is .thisExpr || (t.strays? ownsThis).isNone)
      = true := by decide +kernel
  obtain ⟨n, f, hn, hf, ht⟩ := exists_of_holdsAt h
  rw [(mem_walk_top.1 hf).2] at ht
  simp only [Bool.and_eq_true, Bool.not_eq_true', beq_iff_eq, List.all_eq_true,
    Bool.or_eq_true, Option.isNone_iff_eq_none] at ht
  obtain ⟨⟨⟨hfun, harrow⟩, hlen⟩, hall⟩ := ht
  refine ⟨n, f, hn, hf, hfun, harrow, hlen,
    ((this_owner_iff hn).2.1 f hf hfun harrow).2 fun t ht hk _ => ?_⟩
  exact (hall t ht).resolve_left (by simp [hk])

/-- The initializer of a field has a `this` of its own. It is listed for
the function around the class, and passes for the `this` of that
function. -/
theorem thisReferences_overlooks_field :
    ∃ n f t u, parse (Text.ofString "function f() \x7b class A \x7b x = this; \x7d \x7d")
        = .ok n ∧ f ∈ (top n).walk ∧ f.isFunction = true
      ∧ f.is .arrowFunction = false
      ∧ t ∈ (top n).walk ∧ t.is .thisExpr = true ∧ u ∈ (top n).walk
      ∧ t ∈ f.thisReferences ∧ t.owner? ≠ some f
      ∧ t.isStableAt u = .ok true ∧ u.owner? = some f := by
  have h : holdsAt (Text.ofString "function f() \x7b class A \x7b x = this; \x7d \x7d")
      [0, 3, 1] (fun u => u.owner?.any fun f =>
        f.isFunction && !f.is .arrowFunction && f.thisReferences.any fun t =>
          t.owner?.any (·.is .fieldDefinition)
            && (t.isStableAt u).toOption == some true) = true := by
    decide +kernel
  obtain ⟨n, u, hn, hu, ht⟩ := exists_of_holdsAt h
  simp only [Option.any_eq_true, Bool.and_eq_true, Bool.not_eq_true', List.any_eq_true,
    beq_iff_eq] at ht
  obtain ⟨f, howner, ⟨hfun, harrow⟩, t, hmem, ⟨q, hq, hfield⟩, hstable⟩ := ht
  obtain ⟨hreach, hk⟩ := mem_thisReferences.1 hmem
  obtain ⟨hp, hr⟩ := mem_walk_top.1 hu
  obtain ⟨hfp, hfr, -⟩ := hp.of_mem_ancestors (ownerIn_mem_ancestorsIn howner)
  have hf : f ∈ (top n).walk := mem_walk_top.2 ⟨hfp, hfr.trans hr⟩
  refine ⟨n, f, t, u, hn, hf, hfun, harrow, mem_walk_trans hf hreach.mem_walk, hk, hu,
    hmem, fun hft => ?_, eq_ok_of_toOption hstable, howner⟩
  rw [hq, Option.some.injEq] at hft
  subst hft
  rw [show q.is .fieldDefinition = false from
    Node.is_false_of_isFunction hfun (by decide)] at hfield
  cases hfield

end Codemod
