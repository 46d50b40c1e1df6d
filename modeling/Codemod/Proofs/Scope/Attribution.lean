/-
What the analysis records.

`Cursor.declarations` walks the whole tree and lists what each node
declares; every clause of the language that introduces a name is one
branch of it. `Attributes` says the same as a relation between the node
that introduces a name, the identifier and the scope it is given to, and
`exists_mem_declarations` ties the two: whatever is proved about which
scope a name belongs to is proved about `Attributes`.
-/
import Codemod.Proofs.Tree.Reach
import Codemod.Proofs.Scope.Lexical

namespace Codemod

-- ================================================================ kinds

theorem Node.is_false_of_isFunction {n : Node} {t : Symbol}
    (h : n.isFunction = true) (ht : t ∉ functionSymbols) : n.is t = false := by
  obtain ⟨s, hs, hk⟩ := Node.isAny_iff.1 h
  exact Node.is_false_of_kind hk (by rintro rfl; exact ht hs)

theorem Node.isFunction_of_kind {n : Node} {s : Symbol}
    (h : n.kind = .symbol s) (hs : s ∉ functionSymbols) :
    n.isFunction = false := by
  rw [Bool.eq_false_iff]
  intro hf
  obtain ⟨t, ht, hk⟩ := Node.isAny_iff.1 hf
  obtain rfl : s = t := by simpa [h] using hk
  exact hs ht

namespace Cursor

-- ==================================================== one introduction

/-- How the analysis comes to attribute an identifier to a scope. -/
inductive Attributes (v x : Cursor) : Cursor → Prop where
  | var {s : Cursor} : x ∈ v.varNames → v.functionScope? = some s → Attributes v x s
  | block {s : Cursor} : x ∈ v.letNames → v.enclosingScope? = some s → Attributes v x s
  | own : x ∈ v.ownNames → Attributes v x v
  | parameter : v.isFunction = true → x ∈ v.parameterNames → Attributes v x v
  | handler : v.is .catchClause = true → x ∈ v.handlerNames → Attributes v x v
  | loop : v.is .forInStatement = true → x ∈ v.loopLetNames → Attributes v x v
  | imported : v.is .importStatement = true → x ∈ v.importedIdentifiers →
      Attributes v x v.root

theorem exists_mem_variablesDeclared {v x s : Cursor} :
    (∃ d ∈ v.variablesDeclared, d.identifier = x ∧ d.scope = some s) ↔
      x ∈ v.declaratorNames
        ∧ (if v.is .variableDeclaration then v.functionScope?
            else v.enclosingScope?) = some s := by
  simp only [variablesDeclared, declaratorNames]
  generalize (if v.is .variableDeclaration = true then v.functionScope?
            else v.enclosingScope?) = sc
  cases sc with
  | none => simp
  | some t =>
      simp only [Option.isNone_some, Bool.false_eq_true, if_false,
        List.mem_flatMap]
      constructor
      · rintro ⟨d, ⟨c, hc, hd⟩, rfl, hs⟩
        cases hn : c.child? .name with
        | none => simp [hn] at hd
        | some target =>
            simp only [hn, List.mem_map] at hd
            obtain ⟨y, hy, rfl⟩ := hd
            refine ⟨⟨c, hc, ?_⟩, hs⟩
            rw [hn]
            exact hy
      · rintro ⟨⟨c, hc, hx⟩, hs⟩
        cases hn : c.child? .name with
        | none => simp [hn] at hx
        | some target =>
            rw [hn] at hx
            refine ⟨?d, ⟨c, hc, ?mem⟩, ?ident, ?scope⟩
            case mem =>
              rw [hn]
              exact List.mem_map_of_mem hx
            case ident => rfl
            case scope => exact hs

theorem exists_mem_nameDeclared {v x s : Cursor} {k : BindingKind}
    {sc : Option Cursor} :
    (∃ d ∈ v.nameDeclared k sc, d.identifier = x ∧ d.scope = some s) ↔
      x ∈ (v.child? .name).toList ∧ sc = some s := by
  unfold nameDeclared
  cases v.child? .name with
  | none => simp
  | some n =>
      cases sc with
      | none => simp
      | some t => simp [eq_comm]

theorem exists_mem_parameterDeclared {p x v s : Cursor} {k : BindingKind} :
    (∃ d ∈ parameterDeclared p v k, d.identifier = x ∧ d.scope = some s) ↔
      x ∈ p.boundIdentifiers ∧ v = s := by
  simp only [parameterDeclared, List.mem_map]
  constructor
  · rintro ⟨d, ⟨y, hy, rfl⟩, rfl, hs⟩
    exact ⟨hy, Option.some.inj hs⟩
  · rintro ⟨hx, rfl⟩
    exact ⟨_, ⟨x, hx, rfl⟩, rfl, rfl⟩

theorem ofWord_eq_var {t : Text} :
    (BindingKind.ofWord t == .var) = (t == Text.ofString "var") := by
  unfold BindingKind.ofWord
  split
  · next h => rw [h]; rfl
  · next h =>
    have h' : (t == Text.ofString "var") = false := by simpa using h
    rw [h']
    split
    · rfl
    · split
      · rfl
      · rfl

theorem exists_mem_loopDeclared {v x s : Cursor} :
    (∃ d ∈ v.loopDeclared, d.identifier = x ∧ d.scope = some s) ↔
      (v.loopWord? = some (Text.ofString "var") ∧ x ∈ v.loopNames
        ∧ v.functionScope? = some s) ∨ (x ∈ v.loopLetNames ∧ v = s) := by
  simp only [loopDeclared, loopLetNames, loopWord?, loopNames]
  cases v.child? .kind with
  | none => simp
  | some k =>
      cases v.child? .left with
      | none => simp
      | some left =>
          simp only [ofWord_eq_var, Option.map_some, List.mem_map,
            Option.some.injEq]
          cases hk : k.code == Text.ofString "var" with
          | true =>
              have hk' : k.code = Text.ofString "var" := by simpa using hk
              simp only [hk', if_true]
              constructor
              · rintro ⟨d, ⟨y, hy, rfl⟩, rfl, hs⟩
                exact Or.inl ⟨trivial, hy, hs⟩
              · rintro (⟨-, hx, hs⟩ | ⟨hx, -⟩)
                · exact ⟨_, ⟨x, hx, rfl⟩, rfl, hs⟩
                · simp at hx
          | false =>
              have hk' : k.code ≠ Text.ofString "var" := by simpa using hk
              simp only [hk', Bool.false_eq_true, if_false, false_and, false_or]
              constructor
              · rintro ⟨d, ⟨y, hy, rfl⟩, rfl, hs⟩
                exact ⟨hy, Option.some.inj hs⟩
              · rintro ⟨hx, rfl⟩
                exact ⟨_, ⟨x, hx, rfl⟩, rfl, rfl⟩

theorem exists_mem_importDeclared {v x s : Cursor} :
    (∃ d ∈ v.importDeclared, d.identifier = x ∧ d.scope = some s) ↔
      x ∈ v.importedIdentifiers ∧ v.root = s := by
  simp only [importDeclared, List.mem_map]
  constructor
  · rintro ⟨d, ⟨y, hy, rfl⟩, rfl, hs⟩
    exact ⟨hy, Option.some.inj hs⟩
  · rintro ⟨hx, rfl⟩
    exact ⟨_, ⟨x, hx, rfl⟩, rfl, rfl⟩

theorem exists_mem_declaredBy {v x s : Cursor} :
    (∃ d ∈ v.declaredBy, d.identifier = x ∧ d.scope = some s) ↔
      (v.is .variableDeclaration = true ∧ x ∈ v.declaratorNames
          ∧ v.functionScope? = some s)
        ∨ (x ∈ v.letNames ∧ v.enclosingScope? = some s)
        ∨ (x ∈ v.ownNames ∧ v = s) := by
  unfold declaredBy letNames ownNames
  by_cases hvar : v.is .variableDeclaration = true
  · have hk := Node.is_iff.1 hvar
    simp [isAny, Node.isAny, is, Node.is, hk, exists_mem_variablesDeclared]
  · by_cases hlex : v.is .lexicalDeclaration = true
    · have hk := Node.is_iff.1 hlex
      simp [isAny, Node.isAny, is, Node.is, hk, exists_mem_variablesDeclared]
    · by_cases hfun : v.isAny [.functionDeclaration, .generatorFunctionDeclaration] = true
      · obtain ⟨t, ht, hk⟩ := Node.isAny_iff.1 hfun
        simp only [List.mem_cons, List.not_mem_nil, or_false] at ht
        rcases ht with rfl | rfl <;>
          simp [isAny, Node.isAny, is, Node.is, hk, exists_mem_nameDeclared]
      · by_cases hcls : v.is .classDeclaration = true
        · have hk := Node.is_iff.1 hcls
          simp [isAny, Node.isAny, is, Node.is, hk, exists_mem_nameDeclared]
        · by_cases hexp : v.isAny [.functionExpression, .functionWord, .generatorFunction] = true
          · obtain ⟨t, ht, hk⟩ := Node.isAny_iff.1 hexp
            simp only [List.mem_cons, List.not_mem_nil, or_false] at ht
            rcases ht with rfl | rfl | rfl <;>
              simp [isAny, Node.isAny, is, Node.is, hk, exists_mem_nameDeclared]
          · simp_all [isAny, Node.isAny, is]

theorem exists_mem_declaredInHead {v x s : Cursor} :
    (∃ d ∈ v.declaredInHead, d.identifier = x ∧ d.scope = some s) ↔
      (v.isFunction = true ∧ x ∈ v.parameterNames ∧ v = s)
        ∨ (v.is .catchClause = true ∧ x ∈ v.handlerNames ∧ v = s)
        ∨ (v.is .forInStatement = true
          ∧ ((v.loopWord? = some (Text.ofString "var") ∧ x ∈ v.loopNames
            ∧ v.functionScope? = some s) ∨ (x ∈ v.loopLetNames ∧ v = s)))
        ∨ (v.is .importStatement = true ∧ x ∈ v.importedIdentifiers
          ∧ v.root = s) := by
  unfold declaredInHead parameterNames handlerNames
  by_cases hfun : v.isFunction = true
  · have hc : v.is .catchClause = false :=
      Node.is_false_of_isFunction hfun (by decide)
    have hl : v.is .forInStatement = false :=
      Node.is_false_of_isFunction hfun (by decide)
    have hi : v.is .importStatement = false :=
      Node.is_false_of_isFunction hfun (by decide)
    simp only [hfun, hc, hl, hi, if_true, List.mem_flatMap, true_and,
      Bool.false_eq_true, false_and, or_false]
    constructor
    · rintro ⟨d, ⟨p, hp, hd⟩, hx, hs⟩
      obtain ⟨h1, h2⟩ := exists_mem_parameterDeclared.1 ⟨d, hd, hx, hs⟩
      exact ⟨⟨p, hp, h1⟩, h2⟩
    · rintro ⟨⟨p, hp, hx⟩, rfl⟩
      obtain ⟨d, hd, h⟩ :=
        (exists_mem_parameterDeclared (k := .param)).2 ⟨hx, rfl⟩
      exact ⟨d, ⟨p, hp, hd⟩, h⟩
  · have hfun' : v.isFunction = false := by simpa using hfun
    by_cases hcat : v.is .catchClause = true
    · have hk := Node.is_iff.1 hcat
      have hl : v.is .forInStatement = false :=
        Node.is_false_of_kind hk (by decide)
      have hi : v.is .importStatement = false :=
        Node.is_false_of_kind hk (by decide)
      cases hp : v.child? .parameter with
      | none => simp [hfun', hl, hi]
      | some p => simp [hfun', hcat, hl, hi, exists_mem_parameterDeclared]
    · have hcat' : v.is .catchClause = false := by simpa using hcat
      by_cases hloop : v.is .forInStatement = true
      · have hk := Node.is_iff.1 hloop
        have hi : v.is .importStatement = false :=
          Node.is_false_of_kind hk (by decide)
        simp only [hfun', hcat', hloop, hi, Bool.false_eq_true, if_false,
          if_true, exists_mem_loopDeclared, false_and, false_or, true_and,
          or_false]
      · have hloop' : v.is .forInStatement = false := by simpa using hloop
        cases himp : v.is .importStatement with
        | true => simp [hfun', hcat', hloop', exists_mem_importDeclared]
        | false => simp [hfun', hcat', hloop']

/-- The declarations of a tree attribute an identifier to a scope as
`Attributes` says. -/
theorem exists_mem_declarations {r x s : Cursor} :
    (∃ d ∈ r.declarations, d.identifier = x ∧ d.scope = some s) ↔
      ∃ v ∈ r.walk, Attributes v x s := by
  have key : ∀ v : Cursor,
      (∃ d ∈ v.declaredBy ++ v.declaredInHead,
        d.identifier = x ∧ d.scope = some s) ↔ Attributes v x s := by
    intro v
    simp only [List.mem_append, or_and_right, exists_or]
    rw [exists_mem_declaredBy, exists_mem_declaredInHead]
    constructor
    · rintro ((⟨hk, hx, hs⟩ | ⟨hx, hs⟩ | ⟨hx, rfl⟩) | ⟨hk, hx, rfl⟩
        | ⟨hk, hx, rfl⟩ | ⟨hk, ⟨hw, hx, hs⟩ | ⟨hx, rfl⟩⟩ | ⟨hk, hx, rfl⟩)
      · exact .var (by rw [varNames, if_pos hk]; exact hx) hs
      · exact .block hx hs
      · exact .own hx
      · exact .parameter hk hx
      · exact .handler hk hx
      · refine .var ?_ hs
        have hv : v.is .variableDeclaration = false :=
          Node.is_false_of_kind (Node.is_iff.1 hk) (by decide)
        simp [varNames, hv, hk, hw, hx]
      · exact .loop hk hx
      · exact .imported hk hx
    · intro h
      cases h with
      | var hx hs =>
          unfold varNames at hx
          split at hx
          · next hk => exact Or.inl (Or.inl ⟨hk, hx, hs⟩)
          · split at hx
            · next hk =>
                simp only [Bool.and_eq_true, beq_iff_eq] at hk
                exact Or.inr (Or.inr (Or.inr
                  (Or.inl ⟨hk.1, Or.inl ⟨hk.2, hx, hs⟩⟩)))
            · cases hx
      | block hx hs => exact Or.inl (Or.inr (Or.inl ⟨hx, hs⟩))
      | own hx => exact Or.inl (Or.inr (Or.inr ⟨hx, rfl⟩))
      | parameter hk hx => exact Or.inr (Or.inl ⟨hk, hx, rfl⟩)
      | handler hk hx => exact Or.inr (Or.inr (Or.inl ⟨hk, hx, rfl⟩))
      | loop hk hx =>
          exact Or.inr (Or.inr (Or.inr (Or.inl ⟨hk, Or.inr ⟨hx, rfl⟩⟩)))
      | imported hk hx =>
          exact Or.inr (Or.inr (Or.inr (Or.inr ⟨hk, hx, rfl⟩)))
  unfold declarations
  constructor
  · rintro ⟨d, hd, h⟩
    obtain ⟨v, hv, hd⟩ := List.mem_flatMap.1 hd
    exact ⟨v, hv, (key v).1 ⟨d, hd, h⟩⟩
  · rintro ⟨v, hv, h⟩
    obtain ⟨d, hd, h⟩ := (key v).2 h
    exact ⟨d, List.mem_flatMap.2 ⟨v, hv, hd⟩, h⟩

/-- A declaration goes by the text of its identifier. -/
theorem name_of_mem_declarations {r : Cursor} {d : Declaration}
    (hd : d ∈ r.declarations) : d.name = d.identifier.code := by
  obtain ⟨v, -, hd⟩ := List.mem_flatMap.1 hd
  rcases List.mem_append.1 hd with hd | hd
  · unfold declaredBy variablesDeclared nameDeclared at hd
    grind
  · unfold declaredInHead parameterDeclared loopDeclared importDeclared at hd
    grind

end Cursor
end Codemod
