/-
The uses of a folded variable.

A variable that holds a wrapper may be folded when each of its uses could
be. The uses are looked for below the scope that declares the variable,
by its name, and each name found is resolved again. Nothing is missed in
this way (`mem_references_iff`): a place that resolves to a scope lies
below it.

Main statement: `isFoldable_iff`. An initializer is folded just when it
is the only value of its variable (`IsOnlyValue`) and every use of the
variable, wherever in the file, is accounted for (`IsAccountedFor`).
-/
import Codemod.Proofs.Rule.Form
import Codemod.Proofs.Scope.Resolution

namespace Codemod

-- ============================================================= definitions

/-- A step that leaves nothing behind: its method is called without
arguments, and the call is a statement of its own. -/
def ChainStep.IsBare (s : ChainStep) : Prop :=
  ∃ call, s.call = some call ∧ call.arguments = [] ∧ call.statement?.isSome = true

namespace Cursor

/-- The scope that the names of a declarator belong to. -/
def declaratorScope? (d : Cursor) : Option Cursor :=
  match d.parent? with
  | some v =>
    if v.is .variableDeclaration then v.functionScope? else v.enclosingScope?
  | none => none

/-- A declarator gives a target an expression for its value, parentheses
apart. -/
structure Initializes (d target e : Cursor) : Prop where
  kind : d.is .variableDeclarator = true
  target : d.child? .name = some target
  value : ∃ v, d.child? .value = some v ∧ v.unparen = e.unparen

/-- An identifier that resolves to the variable of a declarator and is not
the declarator's own. -/
structure Uses (d target u : Cursor) : Prop where
  kind : u.isAny [.identifier, .shorthandPropertyIdentifier] = true
  code : u.code = target.code
  ne : u ≠ target
  bound : ∃ s, u.bindingScope? target.code = some s ∧ d.declaratorScope? = some s

/-- A use of a wrapper that its element can serve for: it starts a chain of
steps with allowed names, and a method that takes no arguments is called
bare, at the end of the chain. -/
structure IsAccountedFor (allowed : List Text) (u : Cursor) : Prop where
  kind : u.is .identifier = true
  chain : ∃ steps, u.chain? = some steps ∧ steps ≠ []
    ∧ (∀ s ∈ steps, s.name ∈ allowed)
    ∧ ∀ before s after, steps = before ++ s :: after →
      s.name.isOneOf noArgumentMembers = true → after = [] ∧ s.IsBare

/-- The variable of a target has one declaration and no other value than
the expression, and is not shared with other files. -/
structure IsOnlyValue (target e : Cursor) : Prop where
  kind : target.is .identifier = true
  declared : ∃ s x, target.binding? target.code = some (s, [x])
    ∧ isSharedDollar target.code (some s) = false
  resolved : ∃ init, target.resolve? target.code = some init
    ∧ init.unparen.same e.unparen = true

variable {allowed names : List Text} {c d t u : Cursor} {n : Node}

-- ================================================================== chains

theorem areStepsFoldable_cons {s : ChainStep} {rest : List ChainStep} :
    areStepsFoldable allowed (s :: rest) = true ↔ s.name ∈ allowed
      ∧ (s.name.isOneOf noArgumentMembers = true → rest = [] ∧ s.IsBare)
      ∧ areStepsFoldable allowed rest = true := by
  unfold ChainStep.IsBare
  rw [areStepsFoldable]
  cases s.name.isOneOf noArgumentMembers with
  | false => simp
  | true =>
      cases s.call with
      | none => simp
      | some call => simp [and_left_comm, and_assoc]

theorem areStepsFoldable_iff {steps : List ChainStep} :
    areStepsFoldable allowed steps = true ↔ (∀ s ∈ steps, s.name ∈ allowed)
      ∧ ∀ before s after, steps = before ++ s :: after →
        s.name.isOneOf noArgumentMembers = true → after = [] ∧ s.IsBare := by
  induction steps with
  | nil => simp [areStepsFoldable]
  | cons s rest ih =>
      rw [areStepsFoldable_cons, ih, List.forall_mem_cons]
      constructor
      · rintro ⟨hs, hlast, hrest, hsplit⟩
        refine ⟨⟨hs, hrest⟩, fun before r after heq hr => ?_⟩
        cases before with
        | nil =>
            obtain ⟨rfl, rfl⟩ := List.cons.inj heq
            exact hlast hr
        | cons b before =>
            obtain ⟨-, heq⟩ := List.cons.inj heq
            exact hsplit before r after heq hr
      · rintro ⟨⟨hs, hrest⟩, hsplit⟩
        refine ⟨hs, hsplit [] s rest rfl, hrest, fun before r after heq hr => ?_⟩
        exact hsplit (s :: before) r after (by rw [heq]; rfl) hr

theorem isAccountedFor_iff : u.IsAccountedFor allowed
    ↔ (u.is .identifier && u.isChainFoldable allowed) = true := by
  rw [Bool.and_eq_true]
  constructor
  · rintro ⟨hk, steps, hsteps, hne, h⟩
    refine ⟨hk, ?_⟩
    cases steps with
    | nil => exact absurd rfl hne
    | cons s rest =>
        rw [isChainFoldable, hsteps]
        exact areStepsFoldable_iff.2 h
  · rintro ⟨hk, h⟩
    refine ⟨hk, ?_⟩
    unfold isChainFoldable at h
    split at h
    · cases h
    · next steps hne hsteps =>
        exact ⟨steps, hsteps, hne, areStepsFoldable_iff.1 h⟩
    · cases h

-- ================================================================== places

theorem climb_unparenWithin (fuel : Nat) (c : Cursor) :
    (unparenWithin fuel c).climb = c.climb := by
  induction fuel generalizing c with
  | zero => rfl
  | succ fuel ih =>
      rcases unparenWithin_cases (fuel + 1) c with h | ⟨e, f, hk, he, hf, h⟩
      · rw [h]
      · obtain rfl : fuel = f := by omega
        have hmem : e ∈ c.children :=
          mem_children_of_mem_operands (by rw [he]; exact List.mem_singleton_self e)
        obtain ⟨i, -, ha⟩ := mem_children.1 hmem
        rw [h, ih, climb, ha, climbIn]
        exact if_pos hk

/-- Parentheses taken off and put on again. -/
theorem climb_unparen (c : Cursor) : c.unparen.climb = c.climb :=
  climb_unparenWithin _ c

theorem climb_of_mem_children (h : u ∈ c.children)
    (hk : c.is .parenthesizedExpression = false) : u.climb = u := by
  obtain ⟨i, -, ha⟩ := mem_children.1 h
  have hk' : c.node.is .parenthesizedExpression = false := hk
  obtain ⟨m, above⟩ := u
  obtain rfl : above = (c.node, i) :: c.above := ha
  rw [climb, climbIn, hk']
  rfl

/-- A part in parentheses leads back to what it is a part of. -/
theorem parent?_climb_unparen (h : u ∈ c.children)
    (hk : c.is .parenthesizedExpression = false) : u.unparen.climb.parent? = some c := by
  rw [climb_unparen, climb_of_mem_children h hk, parent?_of_mem_children h]

/-- The value of a declarator leads back to the declarator. -/
theorem Initializes.climb (h : Initializes d t c) :
    ∃ v, d.child? .value = some v ∧ c.unparen.climb = v
      ∧ v.parent? = some d := by
  obtain ⟨v, hv, hu⟩ := h.value
  have hmem := mem_children_of_child? hv
  refine ⟨v, hv, ?_, parent?_of_mem_children hmem⟩
  have hk : d.is .parenthesizedExpression = false :=
    Node.is_false_of_kind (Node.is_iff.1 h.kind) (by decide)
  rw [← hu, climb_unparen, climb_of_mem_children hmem hk]

-- ============================================================== references

theorem mem_walk_of_mem_scopeChain {s : Cursor} (hu : u ∈ (top n).walk)
    (hs : s ∈ u.scopeChain) : s ∈ (top n).walk ∧ u ∈ s.walk := by
  obtain ⟨hplaced, hroot⟩ := mem_walk_top.1 hu
  rcases List.mem_cons.1 (List.mem_of_mem_filter hs) with rfl | hs
  · exact ⟨hu, self_mem_walk _⟩
  · obtain ⟨hp, hr, hmem⟩ := hplaced.of_mem_ancestors hs
    exact ⟨mem_walk_top.2 ⟨hp, hr.trans hroot⟩, hmem⟩

theorem declarationsOf_eq {name : Text} (hu : u ∈ (top n).walk) :
    u.declarationsOf name = (top n).declarationsOf name := by
  rw [declarationsOf, declarationsOf, (mem_walk_top.1 hu).2]
  rfl

/-- The references below a scope are all places of the tree that resolve
to it, save for the declarations themselves. -/
theorem mem_references_iff {name : Text} {s : Cursor} (hn : n.Identified)
    (hs : s ∈ (top n).walk) : u ∈ s.references name
      ↔ u ∈ (top n).walk
        ∧ u.isAny [.identifier, .shorthandPropertyIdentifier] = true
        ∧ u.code = name ∧ u.bindingScope? name = some s
        ∧ ∀ x ∈ inScope (s.declarationsOf name) s, x.identifier.same u = false := by
  unfold references bindingScope? binding?
  simp only [List.mem_filter, Bool.and_eq_true, beq_iff_eq,
    Bool.not_eq_true', List.any_eq_false, List.mem_map, forall_exists_index,
    and_imp, forall_apply_eq_imp_iff₂, Bool.not_eq_true, Option.map_eq_some_iff]
  constructor
  · rintro ⟨hmem, ⟨⟨hk, hcode⟩, hno⟩, hl⟩
    have hu := mem_walk_trans hs hmem
    rw [declarationsOf_eq hs] at hl
    rw [declarationsOf_eq hu]
    refine ⟨hu, hk, hcode, ?_, hno⟩
    split at hl
    · next r found hfound =>
        have hr := (mem_walk_of_mem_scopeChain hu (mem_of_lookUp hfound)).1
        exact ⟨(r, found), hfound, eq_of_same hn hr hs hl⟩
    · cases hl
  · rintro ⟨hu, hk, hcode, ⟨⟨r, found⟩, hl, rfl⟩, hno⟩
    rw [declarationsOf_eq hu] at hl
    refine ⟨(mem_walk_of_mem_scopeChain hu (mem_of_lookUp hl)).2,
      ⟨⟨hk, hcode⟩, hno⟩, ?_⟩
    rw [declarationsOf_eq hs, hl]
    exact beq_self_eq_true _

-- ============================================================= initializers

theorem of_mem_variablesDeclared_init {v init : Cursor} {x : Declaration}
    (hx : x ∈ v.variablesDeclared) (hinit : x.init = some init) :
    ∃ d ∈ v.children, ∃ target, x.declarator = some d
      ∧ d.is .variableDeclarator = true ∧ d.child? .value = some init
      ∧ d.child? .name = some target ∧ x.identifier ∈ target.boundIdentifiers
      ∧ x.scope = d.declaratorScope? := by
  simp only [variablesDeclared] at hx
  generalize hscope : (if v.is .variableDeclaration = true then v.functionScope?
    else v.enclosingScope?) = scope at hx
  cases scope with
  | none => cases hx
  | some r =>
      obtain ⟨d, hd, hx⟩ := List.mem_flatMap.1 hx
      obtain ⟨hmem, hk⟩ := List.mem_filter.1 hd
      have hd : d.declaratorScope? = some r := by
        rw [declaratorScope?, parent?_of_mem_children hmem]
        exact hscope
      cases htarget : d.child? .name with
      | none => simp [htarget] at hx
      | some target =>
          rw [htarget] at hx
          obtain ⟨ident, hident, rfl⟩ := List.mem_map.1 hx
          exact ⟨d, hmem, target, rfl, hk, hinit, htarget, hident, hd.symm⟩

/-- A declaration with an initializer comes from a declarator in a
declaration of variables. -/
theorem of_mem_declarations_init {r init : Cursor} {x : Declaration}
    (hx : x ∈ r.declarations) (hinit : x.init = some init) :
    ∃ v ∈ r.walk, ∃ d ∈ v.children, ∃ target, x.declarator = some d
      ∧ d.is .variableDeclarator = true ∧ d.child? .value = some init
      ∧ d.child? .name = some target ∧ x.identifier ∈ target.boundIdentifiers
      ∧ x.scope = d.declaratorScope? := by
  obtain ⟨v, hv, hx⟩ := List.mem_flatMap.1 hx
  refine ⟨v, hv, ?_⟩
  rcases List.mem_append.1 hx with hx | hx
  · unfold declaredBy at hx
    split at hx
    · exact of_mem_variablesDeclared_init hx hinit
    · unfold nameDeclared at hx
      grind
  · unfold declaredInHead parameterDeclared loopDeclared importDeclared at hx
    grind

theorem declaratorScope?_mem_walk {s : Cursor} (hd : d ∈ (top n).walk)
    (h : d.declaratorScope? = some s) : s ∈ (top n).walk := by
  obtain ⟨hplaced, hroot⟩ := mem_walk_top.1 hd
  have hmem : s ∈ d.ancestors := by
    obtain ⟨m, above⟩ := d
    cases above with
    | nil => cases h
    | cons pi up =>
        obtain ⟨p, i⟩ := pi
        refine List.mem_cons_of_mem _ ?_
        simp only [declaratorScope?, parent?] at h
        split at h
        · exact List.mem_of_find?_eq_some h
        · exact List.mem_of_find?_eq_some h
  obtain ⟨hp, hr, -⟩ := hplaced.of_mem_ancestors hmem
  exact mem_walk_top.2 ⟨hp, hr.trans hroot⟩

theorem found_of_lookUp {ds found : List Declaration} {ss : List Cursor}
    {s : Cursor} (h : lookUp ds ss = some (s, found)) : found = inScope ds s := by
  induction ss with
  | nil => cases h
  | cons r ss ih =>
      rw [lookUp] at h
      split at h
      · exact ih h
      · next hne =>
          obtain ⟨rfl, rfl⟩ := Prod.mk.inj (Option.some.inj h)
          rfl

/-- What a name resolves to is the initializer of its only
declaration. -/
theorem declaration_of_resolve? {name : Text} {init : Cursor}
    (h : u.resolve? name = some init) :
    ∃ s x, u.binding? name = some (s, [x]) ∧ x.init = some init
      ∧ ∃ target, x.declarator.bind (·.child? .name) = some target
        ∧ target.same x.identifier = true := by
  obtain ⟨-, -, s, x, target, hb, -, -, hinit, htarget, hsame, -, -⟩ :=
    resolve?_eq_some_iff.1 h
  exact ⟨s, x, hb, hinit, target, htarget, hsame⟩

/-- The declaration of a variable that only holds its initializer is the
declarator's, and belongs to the declarator's scope. -/
theorem IsOnlyValue.declaration (hn : n.Identified) (hd : d ∈ (top n).walk)
    (hi : d.Initializes t c) (h : t.IsOnlyValue c) :
    ∃ s ∈ (top n).walk, ∃ x, t.binding? t.code = some (s, [x])
      ∧ inScope ((top n).declarationsOf t.code) s = [x]
      ∧ x.identifier = t ∧ d.declaratorScope? = some s := by
  obtain ⟨init, hr, hsame⟩ := h.resolved
  obtain ⟨s, x, hb, hinit, -⟩ := declaration_of_resolve? hr
  have ht : t ∈ (top n).walk :=
    mem_walk_trans hd (mem_walk_of_child? hi.target)
  have hs := (mem_walk_of_mem_scopeChain ht (mem_of_lookUp hb)).1
  have hfound : inScope ((top n).declarationsOf t.code) s = [x] := by
    rw [← declarationsOf_eq ht]
    exact (found_of_lookUp hb).symm
  have hx : x ∈ inScope ((top n).declarationsOf t.code) s := by
    rw [hfound]
    exact List.mem_singleton_self x
  obtain ⟨hx, hscope⟩ := List.mem_filter.1 hx
  obtain ⟨v, hv, e, he, target, -, hek, hvalue, htarget, hident, hes⟩ :=
    of_mem_declarations_init (List.mem_of_mem_filter hx) hinit
  have hew := mem_walk_of_mem_children hv he
  -- the initializer is the expression, so both declarators are the same
  obtain ⟨w, hw, hclimb, hparent⟩ := hi.climb
  have hwd : c.unparen ∈ (top n).walk := by
    obtain ⟨w, hw, hu⟩ := hi.value
    rw [← hu]
    exact mem_walk_trans hd
      (mem_walk_trans (mem_walk_of_child? hw) (unparen_mem_walk w))
  have heq : init.unparen = c.unparen := by
    refine eq_of_same hn (mem_walk_trans hew ?_) hwd hsame
    exact mem_walk_trans (mem_walk_of_child? hvalue) (unparen_mem_walk init)
  have hie : e.Initializes target init := ⟨hek, htarget, init, hvalue, rfl⟩
  obtain ⟨w', hw', hclimb', hparent'⟩ := hie.climb
  rw [heq, hclimb] at hclimb'
  rw [← hclimb', hparent] at hparent'
  obtain rfl := Option.some.inj hparent'
  rw [hi.target] at htarget
  obtain rfl := Option.some.inj htarget
  refine ⟨s, hs, x, hb, hfound, ?_, ?_⟩
  · rw [boundIdentifiers_eq, if_pos] at hident
    · exact List.mem_singleton.1 hident
    · exact Node.isAny_iff.2 ⟨_, List.mem_cons_self, Node.is_iff.1 h.kind⟩
  · rw [← hes]
    split at hscope
    · next r hr =>
        rw [hr, eq_of_same hn ?_ hs hscope]
        exact declaratorScope?_mem_walk hd (hes.symm.trans hr)
    · cases hscope

-- ================================================================== folding

/-- The uses of the variable are the references to it. -/
theorem uses_iff_mem_references (hn : n.Identified) (hd : d ∈ (top n).walk)
    (hi : d.Initializes t c) (h : t.IsOnlyValue c) {s : Cursor}
    {ds : List Declaration} (hb : t.binding? t.code = some (s, ds)) :
    (u ∈ (top n).walk ∧ d.Uses t u) ↔ u ∈ s.references t.code := by
  have ht : t ∈ (top n).walk :=
    mem_walk_trans hd (mem_walk_of_child? hi.target)
  obtain ⟨s', hs, x, hb', hfound, hx, hscope⟩ := h.declaration hn hd hi
  rw [hb] at hb'
  obtain ⟨rfl, rfl⟩ := Prod.mk.inj (Option.some.inj hb')
  rw [mem_references_iff hn hs, declarationsOf_eq hs, hfound]
  simp only [List.mem_singleton, forall_eq, hx]
  constructor
  · rintro ⟨hu, hk, hcode, hne, r, hr, hr'⟩
    obtain rfl := Option.some.inj (hscope.symm.trans hr')
    refine ⟨hu, hk, hcode, hr, Bool.eq_false_iff.2 fun hsame => hne ?_⟩
    exact (eq_of_same hn ht hu hsame).symm
  · rintro ⟨hu, hk, hcode, hr, hne⟩
    refine ⟨hu, hk, hcode, ?_, s, hr, hscope⟩
    rintro rfl
    rw [same, beq_self_eq_true] at hne
    cases hne

theorem isDeclaratorFoldable_iff (hn : n.Identified) (hd : d ∈ (top n).walk)
    (hi : d.Initializes t c) :
    isDeclaratorFoldable d c.unparen allowed = true ↔ t.IsOnlyValue c
      ∧ ∀ u ∈ (top n).walk, d.Uses t u → u.IsAccountedFor allowed := by
  have hall : ∀ s ds, t.binding? t.code = some (s, ds) → t.IsOnlyValue c →
      ((s.references t.code).all (fun r =>
          r.is .identifier && r.isChainFoldable allowed) = true ↔
        ∀ u ∈ (top n).walk, d.Uses t u → u.IsAccountedFor allowed) := by
    intro s ds hb ho
    simp only [List.all_eq_true, ← isAccountedFor_iff,
      ← uses_iff_mem_references hn hd hi ho hb, and_imp]
  unfold isDeclaratorFoldable
  rw [hi.target]
  simp only [Bool.not_eq_true', Bool.if_false_left]
  constructor
  · intro h
    rw [Bool.and_eq_true] at h
    obtain ⟨hk, h⟩ := h
    split at h
    · next s x hb =>
        simp only [Bool.and_eq_true, Bool.not_eq_true'] at h
        obtain ⟨⟨hshared, hr⟩, hrefs⟩ := h
        split at hr
        · next init hinit =>
            have ho : t.IsOnlyValue c :=
              ⟨by simpa using hk, ⟨s, x, hb, hshared⟩, init, hinit, hr⟩
            exact ⟨ho, (hall s [x] hb ho).1 hrefs⟩
        · cases hr
    · cases h
  · rintro ⟨ho, huses⟩
    obtain ⟨s, x, hb, hshared⟩ := ho.declared
    obtain ⟨init, hinit, hsame⟩ := ho.resolved
    simp [ho.kind, hb, hshared, hinit, hsame, (hall s [x] hb ho).2 huses]

/-- The initializer of a variable is folded just when it is a call of the
factory that can be written so many times, the variable has no other
value, and every use of the variable in the file is accounted for. -/
theorem isFoldable_iff (hn : n.Identified) (hd : d ∈ (top n).walk)
    (hi : d.Initializes t c) {copies : Int} :
    c.isFoldable copies allowed names = .ok true
      ↔ c.isFactoryCall names = .ok true
        ∧ (1 < copies → ∀ a ∈ c.unparen.arguments,
          a.unparen.node.isLiteral = .ok true)
        ∧ t.IsOnlyValue c
        ∧ ∀ u ∈ (top n).walk, d.Uses t u → u.IsAccountedFor allowed := by
  obtain ⟨v, hv, hclimb, hparent⟩ := hi.climb
  rw [← isDeclaratorFoldable_iff hn hd hi]
  have hno : d.is .memberExpression = false :=
    Node.is_false_of_kind (Node.is_iff.1 hi.kind) (by decide)
  have hchild : d.hasChild .value v = true := by
    rw [hasChild, hv]
    exact beq_self_eq_true _
  have hcall : c.unparen.isFactoryCall names = c.isFactoryCall names :=
    isFactoryCall_unparen
  unfold isFoldable
  simp only [hclimb, hparent, hno, hi.kind, hchild]
  cases hf : c.isFactoryCall names with
  | error e => simp [hcall, hf, bind, Except.bind]
  | ok b =>
      cases b with
      | false => simp [hcall, hf, bind, Except.bind, pure, Except.pure]
      | true =>
          obtain ⟨-, -, a, ha⟩ := isFactoryCall_spec hf
          by_cases hcopies : 1 < copies
          · cases hl : a.unparen.node.isLiteral with
            | error e => simp [hcall, hf, ha, hl, hcopies, bind, Except.bind]
            | ok literal =>
                cases literal <;> simp [hcall, hf, ha, hl, hcopies, bind,
                  Except.bind, pure, Except.pure]
          · simp [hcall, hf, ha, hcopies, bind, Except.bind, pure, Except.pure]

/-- Where an initializer is folded, every use of its variable is accounted
for, in whatever function it stands. -/
theorem isFoldable_accounts_for_uses (hn : n.Identified)
    (hd : d ∈ (top n).walk) (hi : d.Initializes t c) {copies : Int}
    (h : c.isFoldable copies allowed names = .ok true) (hu : u ∈ (top n).walk)
    (huse : d.Uses t u) : u.IsAccountedFor allowed :=
  ((isFoldable_iff hn hd hi).1 h).2.2.2 u hu huse

theorem bindingScope?_mem_walk {s : Cursor} {name : Text}
    (hu : u ∈ (top n).walk) (h : u.bindingScope? name = some s) :
    s ∈ (top n).walk := by
  obtain ⟨⟨r, found⟩, hl, rfl⟩ := Option.map_eq_some_iff.1 h
  exact (mem_walk_of_mem_scopeChain hu (mem_of_lookUp hl)).1

/-- The test that `u` is a use, by identities. -/
def isUse (d target u : Cursor) : Bool :=
  u.isAny [.identifier, .shorthandPropertyIdentifier]
    && u.code == target.code && !u.same target
    && (u.bindingScope? target.code).any fun s => d.declaratorScope?.any s.same

theorem uses_of_isUse (hn : n.Identified) (hd : d ∈ (top n).walk)
    (hu : u ∈ (top n).walk) (h : isUse d t u = true) : d.Uses t u := by
  simp only [isUse, Bool.and_eq_true, beq_iff_eq, Bool.not_eq_true',
    Option.any_eq_true] at h
  obtain ⟨⟨⟨hk, hcode⟩, hne⟩, s, hs, r, hr, hsame⟩ := h
  refine ⟨hk, hcode, ?_, s, hs, ?_⟩
  · rintro rfl
    rw [same, beq_self_eq_true] at hne
    cases hne
  · rw [hr, eq_of_same hn (bindingScope?_mem_walk hu hs)
      (declaratorScope?_mem_walk hd hr) hsame]

/-- A use in another function, in parentheses. -/
theorem isFoldable_accounts_for_use_in_function :
    ∃ (n : Node) (d t c u : Cursor), parse (Text.ofString
        "var w = ($(el)); function f() \x7b (w).focus(); \x7d") = .ok n
      ∧ d.Initializes t c
      ∧ c.isFoldable 1 defaultTransformableMembers defaultFactoryNames = .ok true
      ∧ u ∈ (top n).walk ∧ d.Uses t u
      ∧ u.IsAccountedFor defaultTransformableMembers := by
  have h : holdsAt (Text.ofString
      "var w = ($(el)); function f() \x7b (w).focus(); \x7d") [0, 1] (fun d =>
      d.is .variableDeclarator && (d.child? .name).any fun t =>
        (d.child? .value).any fun c =>
          (c.isFoldable 1 defaultTransformableMembers defaultFactoryNames).toOption
              == some true
            && (d.root.follow? [1, 3, 1, 0, 0, 0, 1]).any (isUse d t)) = true := by
    decide +kernel
  obtain ⟨n, d, hn, hd, h⟩ := exists_of_holdsAt h
  simp only [Bool.and_eq_true, Option.any_eq_true, beq_iff_eq] at h
  obtain ⟨hk, t, ht, c, hc, hfold, u, hu, huse⟩ := h
  have hid := parse_identified hn
  have hroot := (mem_walk_top.1 hd).2
  rw [hroot] at hu
  have hi : d.Initializes t c := ⟨hk, ht, c, hc, rfl⟩
  have hu := mem_walk_of_follow? hu
  have huse := uses_of_isUse hid hd hu huse
  have hfold := eq_ok_of_toOption hfold
  exact ⟨n, d, t, c, u, hn, hi, hfold, hu, huse,
    isFoldable_accounts_for_uses hid hd hi hfold hu huse⟩

-- ================================================================== exports

/-- An export clause names the variable of a declarator. -/
def IsListedForExport (n : Node) (d target : Cursor) : Prop :=
  ∃ e ∈ (top n).walk, ∃ u, e.is .exportSpecifier = true
    ∧ e.child? .name = some u ∧ d.Uses target u

/-- A name in an export clause starts no chain. -/
theorem not_isAccountedFor_of_specifier {e : Cursor} {r : Role}
    (he : e.is .exportSpecifier = true) (hu : e.child? r = some u) :
    ¬ u.IsAccountedFor allowed := by
  rintro ⟨-, steps, hsteps, hne, -⟩
  have hmem := mem_children_of_child? hu
  have hno : ∀ k, Symbol.exportSpecifier ≠ k → e.is k = false := fun k hk =>
    Node.is_false_of_kind (Node.is_iff.1 he) hk
  rw [chain?, climb_of_mem_children hmem (hno _ (by decide)), chainWithin,
    parent?_of_mem_children hmem] at hsteps
  simp only [hno _ (show Symbol.exportSpecifier ≠ .subscriptExpression by decide),
    hno _ (show Symbol.exportSpecifier ≠ .callExpression by decide),
    hno _ (show Symbol.exportSpecifier ≠ .memberExpression by decide)] at hsteps
  exact hne (Option.some.inj hsteps).symm

/-- Written once, a call of the factory is folded or not. -/
theorem exists_isFoldable (hf : c.isFactoryCall names = .ok true) :
    ∃ b, c.isFoldable 1 allowed names = .ok b := by
  have hcall : c.unparen.isFactoryCall names = c.isFactoryCall names :=
    isFactoryCall_unparen
  obtain ⟨-, -, a, ha⟩ := isFactoryCall_spec hf
  unfold isFoldable
  simp only [hcall, hf, ha, bind, Except.bind, pure, Except.pure]
  cases c.unparen.climb.parent? with
  | none => exact ⟨_, rfl⟩
  | some p =>
      simp only [Bool.not_true, Bool.false_eq_true, if_false, Int.reduceLT,
        gt_iff_lt]
      split
      · exact ⟨_, rfl⟩
      · split
        · exact ⟨_, rfl⟩
        · exact ⟨_, rfl⟩

/-- A call of the factory that initializes a variable is kept just when an
export clause names the variable, the variable has another value, or a
use of it is not accounted for. -/
theorem isFoldable_eq_false_iff_of_initializes (hn : n.Identified)
    (hd : d ∈ (top n).walk) (hi : d.Initializes t c)
    (hf : c.isFactoryCall names = .ok true) :
    c.isFoldable 1 allowed names = .ok false
      ↔ IsListedForExport n d t ∨ ¬ t.IsOnlyValue c
        ∨ ∃ u ∈ (top n).walk, d.Uses t u ∧ ¬ u.IsAccountedFor allowed := by
  have hfold : c.isFoldable 1 allowed names = .ok true ↔ _ := isFoldable_iff hn hd hi
  constructor
  · intro h
    by_contra hno
    simp only [not_or, not_not, not_exists, not_and] at hno
    obtain ⟨-, ho, huses⟩ := hno
    have := hfold.2 ⟨hf, fun hlt => absurd hlt (by decide), ho, huses⟩
    rw [h] at this
    cases this
  · intro h
    obtain ⟨b, hb⟩ : ∃ b, c.isFoldable 1 allowed names = .ok b := exists_isFoldable hf
    cases b with
    | false => exact hb
    | true =>
        obtain ⟨-, -, ho, huses⟩ := hfold.1 hb
        rcases h with ⟨e, he, u, hek, hu, huse⟩ | h | ⟨u, hu, huse, hno⟩
        · have hmem := mem_walk_trans he (mem_walk_of_child? hu)
          exact absurd (huses u hmem huse)
            (not_isAccountedFor_of_specifier hek hu)
        · exact absurd ho h
        · exact absurd (huses u hu huse) hno

/-- An export clause names the variable by another name. -/
theorem isFoldable_eq_false_of_specifier :
    ∃ (n : Node) (d t c : Cursor), parse (Text.ofString "const w = $(\"#a\"); export \x7b w as x \x7d;")
        = .ok n
      ∧ d.Initializes t c ∧ c.isFactoryCall defaultFactoryNames = .ok true
      ∧ IsListedForExport n d t
      ∧ c.isFoldable 1 defaultTransformableMembers defaultFactoryNames
        = .ok false := by
  have h : holdsAt (Text.ofString "const w = $(\"#a\"); export \x7b w as x \x7d;")
      [0, 1] (fun d => d.is .variableDeclarator && (d.child? .name).any fun t =>
        (d.child? .value).any fun c =>
          (c.isFactoryCall defaultFactoryNames).toOption == some true
            && (d.root.follow? [1, 1, 1]).any fun e => e.is .exportSpecifier
              && (e.child? .name).any (isUse d t)) = true := by
    decide +kernel
  obtain ⟨n, d, hn, hd, h⟩ := exists_of_holdsAt h
  simp only [Bool.and_eq_true, Option.any_eq_true, beq_iff_eq] at h
  obtain ⟨hk, t, ht, c, hc, hf, e, he, hek, u, hu, huse⟩ := h
  have hid := parse_identified hn
  have hroot := (mem_walk_top.1 hd).2
  rw [hroot] at he
  have hi : d.Initializes t c := ⟨hk, ht, c, hc, rfl⟩
  have he := mem_walk_of_follow? he
  have hlisted : IsListedForExport n d t := ⟨e, he, u, hek, hu,
    uses_of_isUse hid hd (mem_walk_trans he (mem_walk_of_child? hu)) huse⟩
  have hf := eq_ok_of_toOption hf
  exact ⟨n, d, t, c, hn, hi, hf, hlisted,
    (isFoldable_eq_false_iff_of_initializes hid hd hi hf).2 (Or.inl hlisted)⟩

/-- An `export` in front of the declaration is not looked at, so the value
that other files import is exchanged. -/
theorem isFoldable_overlooks_exported_declaration :
    ∃ (n : Node) (d t c v e : Cursor), parse (Text.ofString "export const w = $(\"#a\");") = .ok n
      ∧ d ∈ (top n).walk ∧ d.Initializes t c
      ∧ c.isFactoryCall defaultFactoryNames = .ok true
      ∧ d.parent? = some v ∧ v.parent? = some e
      ∧ e.is .exportStatement = true ∧ e.hasChild .declaration v = true
      ∧ c.isFoldable 1 defaultTransformableMembers defaultFactoryNames = .ok true
      ∧ (Rules.byId.apply .default (.ofProgram n)).1.render
        = Text.ofString "export const w = document.getElementById(\"a\");" := by
  have h : holdsAt (Text.ofString "export const w = $(\"#a\");") [0, 1, 1]
      (fun d => d.is .variableDeclarator && (d.child? .name).any fun t =>
        (d.child? .value).any fun c =>
          (c.isFactoryCall defaultFactoryNames).toOption == some true
          && (c.isFoldable 1 defaultTransformableMembers
              defaultFactoryNames).toOption == some true
          && (d.parent?.any fun v => v.parent?.any fun e =>
            e.is .exportStatement && e.hasChild .declaration v)
          && (Rules.byId.apply .default (.ofProgram d.root.node)).1.render
            == Text.ofString "export const w = document.getElementById(\"a\");")
      = true := by decide +kernel
  obtain ⟨n, d, hn, hd, h⟩ := exists_of_holdsAt h
  simp only [Bool.and_eq_true, Option.any_eq_true, beq_iff_eq] at h
  obtain ⟨hk, t, ht, c, hc, ⟨⟨hf, hfold⟩, v, hv, e, he, hek, hchild⟩, hrender⟩ := h
  rw [(mem_walk_top.1 hd).2] at hrender
  exact ⟨n, d, t, c, v, e, hn, hd, ⟨hk, ht, c, hc, rfl⟩, eq_ok_of_toOption hf, hv,
    he, hek, hchild, eq_ok_of_toOption hfold, hrender⟩

end Cursor

end Codemod
