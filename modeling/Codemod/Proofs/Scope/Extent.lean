/-
How far a construct reaches.

The analysis goes from a declaration outwards to its scope, the language
from a construct inwards to its declarations. Both directions are
`Cursor.Reaches` for one kind of barrier or another, so that what is left
is to compare the barriers: a `var` also stops at a static block
(`reaches_isVarScope_iff`), and the block that is the body of a function
is no scope of its own (`reaches_isScope_iff`).

Main statement: `exists_attributes_iff_of_isScope`. The names that the
analysis gives a scope are those the language gives it and those it goes
astray with.
-/
import Codemod.Proofs.Scope.Attribution

namespace Codemod.Cursor

variable {p v x : Cursor}

-- ============================================ names lie below their node

mutual

theorem boundIn_eq (above : List (Node × Nat)) (n : Node) :
    boundIn above n =
      if n.isAny [.identifier, .shorthandPropertyIdentifierPattern] then
        [⟨n, above⟩]
      else if opensPattern n then
        (childrenFrom n above 0 n.children).flatMap fun d =>
          if bindsIn n d.node then d.boundIdentifiers else []
      else [] := by
  obtain ⟨i, k, b, r, l, t, cs, z⟩ := n
  rw [boundIn, boundInAll_eq]

theorem boundInAll_eq (parent : Node) (above : List (Node × Nat)) (i : Nat)
    (cs : List Node) :
    boundInAll parent above i cs
      = (childrenFrom parent above i cs).flatMap fun d =>
          if bindsIn parent d.node then d.boundIdentifiers else [] := by
  cases cs with
  | nil => rfl
  | cons c cs =>
      rw [boundInAll, childrenFrom, List.flatMap_cons,
        boundInAll_eq parent above (i + 1) cs]
      rfl

end

theorem boundIdentifiers_eq (c : Cursor) :
    c.boundIdentifiers =
      if c.isAny [.identifier, .shorthandPropertyIdentifierPattern] then [c]
      else if opensPattern c.node then
        c.children.flatMap fun d =>
          if bindsIn c.node d.node then d.boundIdentifiers else []
      else [] :=
  boundIn_eq c.above c.node

theorem mem_walk_of_mem_boundIdentifiers {c : Cursor}
    (h : x ∈ c.boundIdentifiers) : x ∈ c.walk := by
  induction c using Cursor.ind with
  | h c ih =>
      rw [boundIdentifiers_eq] at h
      split at h
      · rw [List.mem_singleton.1 h]
        exact self_mem_walk c
      · split at h
        · obtain ⟨d, hd, hx⟩ := List.mem_flatMap.1 h
          split at hx
          · exact mem_walk_iff.2 (Or.inr ⟨d, hd, ih d hd hx⟩)
          · cases hx
        · cases h

/-- An identifier bound by a child lies below the node. -/
theorem mem_walk_of_child?_bound {c t : Cursor} {r : Role}
    (ht : c.child? r = some t) (hx : x ∈ t.boundIdentifiers) : x ∈ c.walk :=
  mem_walk_iff.2 (Or.inr
    ⟨t, mem_children_of_child? ht, mem_walk_of_mem_boundIdentifiers hx⟩)

theorem mem_walk_of_mem_child?_toList {c : Cursor} {r : Role}
    (hx : x ∈ (c.child? r).toList) : x ∈ c.walk := by
  rw [Option.mem_toList] at hx
  exact mem_walk_of_mem_children (self_mem_walk c) (mem_children_of_child? hx)

theorem mem_walk_of_mem_declaratorNames (h : x ∈ v.declaratorNames) :
    x ∈ v.walk := by
  obtain ⟨d, hd, hx⟩ := List.mem_flatMap.1 h
  have hd' : d ∈ v.children := List.mem_of_mem_filter hd
  split at hx
  · cases hx
  · next ht =>
      exact mem_walk_iff.2 (Or.inr ⟨d, hd', mem_walk_of_child?_bound ht hx⟩)

theorem mem_walk_of_mem_loopNames (h : x ∈ v.loopNames) : x ∈ v.walk := by
  unfold loopNames at h
  split at h
  · cases h
  · next ht => exact mem_walk_of_child?_bound ht h

theorem mem_walk_of_mem_parameters (h : x ∈ v.parameters) : x ∈ v.walk := by
  unfold parameters at h
  split at h
  · next p hp =>
      obtain rfl := List.mem_singleton.1 h
      exact mem_walk_of_mem_children (self_mem_walk v) (mem_children_of_child? hp)
  · split at h
    · next ps hps =>
        exact mem_walk_of_mem_children
          (mem_walk_of_mem_children (self_mem_walk v) (mem_children_of_child? hps))
          (mem_children_of_mem_operands h)
    · cases h

theorem mem_walk_of_mem_parameterNames (h : x ∈ v.parameterNames) :
    x ∈ v.walk := by
  obtain ⟨t, ht, hx⟩ := List.mem_flatMap.1 h
  exact mem_walk_trans (mem_walk_of_mem_parameters ht)
    (mem_walk_of_mem_boundIdentifiers hx)

theorem mem_walk_of_mem_importedIdentifiers (h : x ∈ v.importedIdentifiers) :
    x ∈ v.walk := by
  obtain ⟨t, ht, hx⟩ := List.mem_flatMap.1 h
  refine mem_walk_trans ht ?_
  split at hx
  · exact mem_walk_of_mem_children (self_mem_walk t) (List.mem_of_mem_filter hx)
  · split at hx
    · split at hx
      · next name hn =>
          split at hx
          · rw [List.mem_singleton.1 hx]
            refine mem_walk_of_mem_children (self_mem_walk t) ?_
            cases ha : t.child? .alias with
            | none =>
                rw [ha] at hn
                exact mem_children_of_child? hn
            | some a =>
                rw [ha] at hn
                rw [← Option.some.inj hn]
                exact mem_children_of_child? ha
          · cases hx
      · cases hx
    · cases hx

/-- What a node introduces stands below it. -/
theorem Attributes.mem_walk {s : Cursor} (h : Attributes v x s) :
    x ∈ v.walk := by
  cases h with
  | var hx _ =>
      unfold varNames at hx
      split at hx
      · exact mem_walk_of_mem_declaratorNames hx
      · split at hx
        · exact mem_walk_of_mem_loopNames hx
        · cases hx
  | block hx _ =>
      unfold letNames at hx
      split at hx
      · exact mem_walk_of_mem_declaratorNames hx
      · split at hx
        · exact mem_walk_of_mem_child?_toList hx
        · cases hx
  | own hx =>
      unfold ownNames at hx
      split at hx
      · exact mem_walk_of_mem_child?_toList hx
      · cases hx
  | parameter _ hx => exact mem_walk_of_mem_parameterNames hx
  | handler _ hx =>
      unfold handlerNames at hx
      split at hx
      · cases hx
      · next ht => exact mem_walk_of_child?_bound ht hx
  | loop _ hx =>
      unfold loopLetNames at hx
      split at hx
      · cases hx
      · split at hx
        · cases hx
        · exact mem_walk_of_mem_loopNames hx
  | imported _ hx => exact mem_walk_of_mem_importedIdentifiers hx

-- =========================================================== `var` names

/-- Past static blocks: directly, or through one of them. -/
theorem reaches_isVarScope_iff :
    Reaches (fun c => c.node.isVarScope) p v ↔
      Reaches (fun c => c.node.holdsVars) p v
        ∨ ∃ b, Reaches (fun c => c.node.isVarScope) p b
          ∧ b.is .classStaticBlock = true
          ∧ Reaches (fun c => c.node.isVarScope) b v := by
  constructor
  · intro h
    induction h with
    | child hd => exact Or.inl (.child hd)
    | @deeper d e hr hb he ih =>
        rcases ih with hl | ⟨b, hb1, hb2, hb3⟩
        · cases hs : d.is .classStaticBlock with
          | true => exact Or.inr ⟨d, hr, hs, .child he⟩
          | false =>
              refine Or.inl (.deeper hl ?_ he)
              have hs' : d.node.is .classStaticBlock = false := hs
              have hb' : (d.node.is .program || d.node.isFunction) = false := hb
              simp only [Node.holdsVars, hb', hs', Bool.or_self]
        · exact Or.inr ⟨b, hb1, hb2, .deeper hb3 hb he⟩
  · rintro (h | ⟨b, h1, h2, h3⟩)
    · refine h.mono fun c hc => ?_
      have hc' : (c.node.is .program || c.node.isFunction) = true := hc
      simp only [Node.holdsVars, hc', Bool.true_or]
    · refine h1.trans ?_ h3
      have hk := Node.is_iff.1 h2
      simp only [Node.isVarScope, Node.is_false_of_kind (t := .program) hk (by decide),
        Node.isFunction_of_kind hk (by decide), Bool.or_self]

theorem exists_var_iff (hp : p.Placed) :
    (∃ v ∈ p.root.walk, x ∈ v.varNames ∧ v.functionScope? = some p) ↔
      p.node.isVarScope = true ∧ (x ∈ p.varsOf ∨ x ∈ p.strayVars) := by
  constructor
  · rintro ⟨v, hv, hx, hs⟩
    have hvp : v.Placed := (placed_top _).of_mem_walk hv
    have hs' : v.ancestors.find? (fun c => c.node.isVarScope) = some p := hs
    obtain ⟨hb, hr⟩ := (find?_ancestors_eq_some_iff hvp).1 hs'
    refine ⟨hb, ?_⟩
    rcases reaches_isVarScope_iff.1 hr with h | ⟨b, h1, h2, h3⟩
    · exact Or.inl (List.mem_flatMap.2 ⟨v, mem_walkBelowUntil.2 h, hx⟩)
    · refine Or.inr (List.mem_flatMap.2 ⟨b, List.mem_filter.2
        ⟨mem_walkBelowUntil.2 h1, h2⟩, ?_⟩)
      exact List.mem_flatMap.2 ⟨v, mem_walkBelowUntil.2 h3, hx⟩
  · rintro ⟨hb, h⟩
    have key : ∃ v, Reaches (fun c => c.node.isVarScope) p v
        ∧ x ∈ v.varNames := by
      rcases h with h | h
      · obtain ⟨v, hv, hx⟩ := List.mem_flatMap.1 h
        exact ⟨v, reaches_isVarScope_iff.2 (Or.inl (mem_walkBelowUntil.1 hv)), hx⟩
      · obtain ⟨b, hb, h⟩ := List.mem_flatMap.1 h
        obtain ⟨v, hv, hx⟩ := List.mem_flatMap.1 h
        obtain ⟨hb1, hb2⟩ := List.mem_filter.1 hb
        exact ⟨v, reaches_isVarScope_iff.2 (Or.inr ⟨b, mem_walkBelowUntil.1 hb1,
          hb2, mem_walkBelowUntil.1 hv⟩), hx⟩
    obtain ⟨v, hr, hx⟩ := key
    exact ⟨v, mem_walk_trans hp.mem_walk_root hr.mem_walk, hx,
      hr.find?_ancestors hb⟩

-- ======================================================== block scopes

theorem isScope_eq (c : Cursor) :
    c.isScope = if c.is .statementBlock then !c.isFunctionBody
      else c.node.holdsLets := by
  have hfun : c.is .statementBlock = true →
      (c.is .program || c.isFunction) = false := by
    intro h
    have hk := Node.is_iff.1 h
    have hp : c.is .program = false := Node.is_false_of_kind hk (by decide)
    have hf : c.isFunction = false := Node.isFunction_of_kind hk (by decide)
    rw [hp, hf, Bool.or_self]
  unfold isScope isFunctionBody
  cases hb : c.is .statementBlock with
  | true =>
      rw [hfun hb]
      cases c.parent? <;> rfl
  | false =>
      have hb' : c.node.is .statementBlock = false := hb
      simp only [Node.holdsLets, Node.isVarScope, hb', Bool.or_false]
      show (if (c.node.is .program || c.node.isFunction) = true then true
        else if false = true then _ else _) = _
      cases c.node.is .program || c.node.isFunction <;> rfl

/-- Away from functions every block is a scope. -/
theorem isScope_of_mem_children {c d : Cursor} (hd : d ∈ c.children)
    (hc : c.isFunction = false) : d.isScope = d.node.holdsLets := by
  have hb : d.isFunctionBody = false := by
    rw [isFunctionBody, parent?_of_mem_children hd]
    exact hc
  rw [isScope_eq, hb]
  split
  · next h =>
      have h' : d.node.is .statementBlock = true := h
      simp [Node.holdsLets, h']
  · rfl

theorem isFunction_of_isScope {c : Cursor} (h : c.isScope = false) :
    c.isFunction = false := by
  cases hf : c.isFunction with
  | false => rfl
  | true => simp [isScope, hf] at h

theorem reaches_isScope_iff (hp : p.isFunction = false) :
    Reaches isScope p v ↔ Reaches (fun c => c.node.holdsLets) p v := by
  constructor
  · intro h
    suffices h' : Reaches (fun c => c.node.holdsLets) p v
        ∧ v.isScope = v.node.holdsLets from h'.1
    induction h with
    | child hd => exact ⟨.child hd, isScope_of_mem_children hd hp⟩
    | deeper hr hb he ih =>
        refine ⟨.deeper ih.1 ?_ he,
          isScope_of_mem_children he (isFunction_of_isScope hb)⟩
        rw [← ih.2]
        exact hb
  · intro h
    suffices h' : Reaches isScope p v ∧ v.isScope = v.node.holdsLets from h'.1
    induction h with
    | child hd => exact ⟨.child hd, isScope_of_mem_children hd hp⟩
    | deeper hr hb he ih =>
        have hb' := ih.2.trans hb
        exact ⟨.deeper ih.1 hb' he,
          isScope_of_mem_children he (isFunction_of_isScope hb')⟩

/-- A child of a function that is no scope is its body, or no block. -/
theorem isScope_of_mem_function {d : Cursor} (hd : d ∈ p.children)
    (hp : p.isFunction = true) :
    d.isScope = false ↔ (d.is .statementBlock || !d.node.holdsLets) = true := by
  have hb : d.isFunctionBody = true := by
    rw [isFunctionBody, parent?_of_mem_children hd]
    exact hp
  rw [isScope_eq, hb]
  cases d.is .statementBlock <;> simp

/-- What a scope holds directly is what reaches no further than it. -/
theorem mem_ownPart : v ∈ p.ownPart ↔ Reaches isScope p v := by
  unfold ownPart
  split
  · next hp =>
      rw [List.mem_flatMap, reaches_iff]
      refine exists_congr fun d => and_congr_right fun hd => ?_
      rw [List.mem_cons, eq_comm, isScope_of_mem_function hd hp]
      refine or_congr_right ?_
      split
      · next h =>
          have hs := (isScope_of_mem_function hd hp).2 h
          rw [mem_walkBelowUntil, reaches_isScope_iff (isFunction_of_isScope hs)]
          simp [h]
      · next h => simp [h]
  · next hp => rw [mem_walkBelowUntil, reaches_isScope_iff (by simpa using hp)]

theorem exists_block_iff (hp : p.Placed) :
    (∃ v ∈ p.root.walk, x ∈ v.letNames ∧ v.enclosingScope? = some p) ↔
      p.isScope = true ∧ x ∈ p.letsOf := by
  constructor
  · rintro ⟨v, hv, hx, hs⟩
    have hvp : v.Placed := (placed_top _).of_mem_walk hv
    obtain ⟨hb, hr⟩ := (find?_ancestors_eq_some_iff hvp).1 hs
    exact ⟨hb, List.mem_flatMap.2 ⟨v, mem_ownPart.2 hr, hx⟩⟩
  · rintro ⟨hb, h⟩
    obtain ⟨v, hv, hx⟩ := List.mem_flatMap.1 h
    have hr := mem_ownPart.1 hv
    exact ⟨v, mem_walk_trans hp.mem_walk_root hr.mem_walk, hx,
      hr.find?_ancestors hb⟩

-- =============================================================== imports

theorem exists_import_iff :
    (∃ v ∈ p.root.walk, v.is .importStatement = true
        ∧ x ∈ v.importedIdentifiers ∧ v.root = p) ↔ x ∈ p.importsOf := by
  obtain ⟨n, above⟩ := p
  cases above with
  | nil =>
      have hroot : (⟨n, []⟩ : Cursor).root = ⟨n, []⟩ := rfl
      simp only [importsOf, List.isEmpty_nil, if_true, hroot,
        List.mem_flatMap, List.mem_filter]
      constructor
      · rintro ⟨v, hv, hk, hx, -⟩
        exact ⟨v, ⟨hv, hk⟩, hx⟩
      · rintro ⟨v, ⟨hv, hk⟩, hx⟩
        exact ⟨v, hv, hk, hx, root_of_mem_walk hv⟩
  | cons pi up =>
      simp only [importsOf, List.isEmpty_cons, Bool.false_eq_true, if_false,
        List.not_mem_nil, iff_false]
      rintro ⟨v, -, -, -, hr⟩
      cases hr

-- ================================================== the names of a scope

/-- The names that the analysis gives a place, clause by clause. -/
theorem exists_attributes_iff (hp : p.Placed) :
    (∃ v ∈ p.root.walk, Attributes v x p) ↔
      (p.node.isVarScope = true ∧ (x ∈ p.varsOf ∨ x ∈ p.strayVars))
        ∨ (p.isScope = true ∧ x ∈ p.letsOf) ∨ x ∈ p.ownNames
        ∨ (p.isFunction = true ∧ x ∈ p.parameterNames)
        ∨ (p.is .catchClause = true ∧ x ∈ p.handlerNames)
        ∨ (p.is .forInStatement = true ∧ x ∈ p.loopLetNames)
        ∨ x ∈ p.importsOf := by
  rw [← exists_var_iff hp, ← exists_block_iff hp, ← exists_import_iff]
  have hself := hp.mem_walk_root
  constructor
  · rintro ⟨v, hv, h⟩
    cases h with
    | var hx hs => exact Or.inl ⟨v, hv, hx, hs⟩
    | block hx hs => exact Or.inr (Or.inl ⟨v, hv, hx, hs⟩)
    | own hx => exact Or.inr (Or.inr (Or.inl hx))
    | parameter hk hx => exact Or.inr (Or.inr (Or.inr (Or.inl ⟨hk, hx⟩)))
    | handler hk hx =>
        exact Or.inr (Or.inr (Or.inr (Or.inr (Or.inl ⟨hk, hx⟩))))
    | loop hk hx =>
        exact Or.inr (Or.inr (Or.inr (Or.inr (Or.inr (Or.inl ⟨hk, hx⟩)))))
    | imported hk hx =>
        exact Or.inr (Or.inr (Or.inr (Or.inr (Or.inr (Or.inr
          ⟨v, hv, hk, hx, rfl⟩)))))
  · rintro (⟨v, hv, hx, hs⟩ | ⟨v, hv, hx, hs⟩ | hx | ⟨hk, hx⟩ | ⟨hk, hx⟩
      | ⟨hk, hx⟩ | ⟨v, hv, hk, hx, rfl⟩)
    · exact ⟨v, hv, .var hx hs⟩
    · exact ⟨v, hv, .block hx hs⟩
    · exact ⟨p, hself, .own hx⟩
    · exact ⟨p, hself, .parameter hk hx⟩
    · exact ⟨p, hself, .handler hk hx⟩
    · exact ⟨p, hself, .loop hk hx⟩
    · exact ⟨v, hv, .imported hk hx⟩

/-- The kinds of scope. -/
theorem cases_of_isScope (h : p.isScope = true) :
    p.is .program = true
      ∨ p.isFunction = true
      ∨ (p.is .statementBlock = true ∧ p.isFunctionBody = false)
      ∨ ∃ s ∈ blockScopeSymbols, p.node.kind = .symbol s := by
  unfold isScope at h
  split at h
  · next hk =>
      rcases Bool.or_eq_true_iff.1 hk with hk | hk
      · exact Or.inl hk
      · exact Or.inr (Or.inl hk)
  · split at h
    · next hk =>
        refine Or.inr (Or.inr (Or.inl ⟨hk, ?_⟩))
        unfold isFunctionBody
        cases hpar : p.parent? with
        | none => rfl
        | some q =>
            rw [hpar] at h
            simpa using h
    · exact Or.inr (Or.inr (Or.inr (Node.isAny_iff.1 h)))

theorem importsOf_eq_nil (hroot : p.root.is .program = true)
    (h : p.is .program = false) : p.importsOf = [] := by
  obtain ⟨n, above⟩ := p
  cases above with
  | nil =>
      rw [show (⟨n, []⟩ : Cursor).root = ⟨n, []⟩ from rfl, h] at hroot
      cases hroot
  | cons pi up => rfl

theorem ownNames_eq_nil (h : p.isFunction = false) : p.ownNames = [] := by
  have hk : p.isAny [.functionExpression, .functionWord, .generatorFunction]
      = false := by
    rw [Bool.eq_false_iff] at h ⊢
    intro hany
    obtain ⟨s, hs, hk⟩ := Node.isAny_iff.1 hany
    refine h (Node.isAny_iff.2 ⟨s, ?_, hk⟩)
    simp only [List.mem_cons, List.not_mem_nil, or_false] at hs
    rcases hs with rfl | rfl | rfl <;> decide
  rw [ownNames, hk]
  rfl

/-- The names that the analysis gives a scope: those of the language for
any one of its children, and those it carries there. -/
theorem exists_attributes_iff_of_isScope (hp : p.Placed)
    (hroot : p.root.is .program = true) (hs : p.isScope = true) (part : Node) :
    (∃ v ∈ p.root.walk, Attributes v x p) ↔
      x ∈ p.namesFor part ∨ x ∈ p.carriedNames := by
  rw [exists_attributes_iff hp]
  rcases cases_of_isScope hs with hk | hk | ⟨hk, hb⟩ | ⟨s, hmem, hk⟩
  · have hkind := Node.is_iff.1 hk
    have hf : p.isFunction = false :=
      Node.isFunction_of_kind hkind (by decide)
    have hc : p.is .catchClause = false := Node.is_false_of_kind hkind (by decide)
    have hl : p.is .forInStatement = false :=
      Node.is_false_of_kind hkind (by decide)
    have hv : p.node.isVarScope = true := by
      rw [Node.isVarScope, show p.node.is .program = true from hk]
      rfl
    simp only [namesFor, carriedNames, hk, hf, hc, hl, hv, hs,
      ownNames_eq_nil hf, if_true, true_and, List.mem_append,
      List.not_mem_nil, Bool.false_eq_true, false_and, false_or]
    tauto
  · have hp' : p.is .program = false := Node.is_false_of_isFunction hk (by decide)
    have hc : p.is .catchClause = false :=
      Node.is_false_of_isFunction hk (by decide)
    have hl : p.is .forInStatement = false :=
      Node.is_false_of_isFunction hk (by decide)
    have hv : p.node.isVarScope = true := by
      rw [Node.isVarScope, show p.node.isFunction = true from hk, Bool.or_true]
    -- whatever the child sees, the function carries all of its names
    have hsub : x ∈ p.namesFor part → x ∈ p.carriedNames := by
      simp only [namesFor, carriedNames, hp', hk, Bool.false_eq_true, if_false,
        if_true]
      split <;> simp only [List.mem_append, List.not_mem_nil] <;> tauto
    rw [or_iff_right_of_imp hsub]
    simp only [carriedNames, hp', hk, hc, hl, hv, hs,
      importsOf_eq_nil hroot hp', Bool.false_eq_true, if_false, if_true,
      true_and, List.mem_append, List.not_mem_nil, false_and, or_false]
    tauto
  · have hkind := Node.is_iff.1 hk
    have hp' : p.is .program = false := Node.is_false_of_kind hkind (by decide)
    have hf : p.isFunction = false :=
      Node.isFunction_of_kind hkind (by decide)
    have hc : p.is .catchClause = false := Node.is_false_of_kind hkind (by decide)
    have hl : p.is .forInStatement = false :=
      Node.is_false_of_kind hkind (by decide)
    have hv : p.node.isVarScope = false := by
      rw [Node.isVarScope, show p.node.isFunction = false from hf,
        show p.node.is .program = false from hp', Bool.or_self]
    have ht : p.is .classStaticBlock = false :=
      Node.is_false_of_kind hkind (by decide)
    have he : p.is .classExpr = false := Node.is_false_of_kind hkind (by decide)
    simp [namesFor, carriedNames, hp', hf, hc, hl, hv, hs, hk, hb, ht, he,
      ownNames_eq_nil hf, importsOf_eq_nil hroot hp']
  · have hp' : p.is .program = false :=
      Node.is_false_of_kind hk (by rintro rfl; revert hmem; decide)
    have hb : p.is .statementBlock = false :=
      Node.is_false_of_kind hk (by rintro rfl; revert hmem; decide)
    have ht : p.is .classStaticBlock = false :=
      Node.is_false_of_kind hk (by rintro rfl; revert hmem; decide)
    have he : p.is .classExpr = false :=
      Node.is_false_of_kind hk (by rintro rfl; revert hmem; decide)
    have hdisj : ∀ t ∈ blockScopeSymbols, t ∉ functionSymbols := by decide
    have hf : p.isFunction = false :=
      Node.isFunction_of_kind hk (hdisj s hmem)
    have hv : p.node.isVarScope = false := by
      rw [Node.isVarScope, show p.node.isFunction = false from hf,
        show p.node.is .program = false from hp', Bool.or_self]
    have hblk : p.isAny blockScopeSymbols = true := Node.isAny_iff.2 ⟨s, hmem, hk⟩
    simp only [namesFor, carriedNames, hp', hf, hv, hs, hb, ht, he, hblk,
      ownNames_eq_nil hf, importsOf_eq_nil hroot hp', Bool.false_eq_true,
      if_false, if_true, true_and, false_and, List.not_mem_nil, false_or,
      or_false]
    cases hc : p.is .catchClause with
    | true =>
        have hl : p.is .forInStatement = false :=
          Node.is_false_of_kind (Node.is_iff.1 hc) (by decide)
        simp [hl, or_comm]
    | false =>
        cases hl : p.is .forInStatement with
        | true => simp [or_comm]
        | false => simp

end Codemod.Cursor
