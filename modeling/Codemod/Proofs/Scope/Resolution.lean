/-
Resolution against the scoping rules.

`Cursor.binding?` looks a name up in the scopes around a place;
`Cursor.lexical?` is what the language says. The two are compared one
enclosing construct at a time. A construct that is no scope to the
analysis binds only what the analysis cannot see
(`namesFor_of_not_isScope`); a scope is given the names of the language
and those that stray there (`exists_mem_inScope_iff`). So the answers
agree as long as neither kind is met, and differ as soon as one is.

Main statement: `binding?_iff_isReadAright`, the answer is that of the
language exactly where no construct on the way out is misread.
-/
import Codemod.Proofs.Scope.Extent

namespace Codemod

-- ================================================== one construct at a time

namespace Cursor

variable {p q x : Cursor} {root : Node} {name : Text}

/-- A construct that is no scope to the analysis binds nothing the
analysis sees. -/
theorem namesFor_of_not_isScope (h : q.isScope = false) (part : Node) :
    q.namesFor part = q.hiddenNames := by
  have hf : q.isFunction = false := isFunction_of_isScope h
  have hp : q.is .program = false := by
    cases hp : q.is .program with
    | false => rfl
    | true => simp [isScope, hp] at h
  cases ht : q.is .classStaticBlock with
  | true => simp [namesFor, hiddenNames, hp, hf, ht]
  | false =>
      cases he : q.is .classExpr with
      | true => simp [namesFor, hiddenNames, hp, hf, ht, he]
      | false =>
          cases hb : q.is .statementBlock with
          | true =>
              have hbody : q.isFunctionBody = true := by
                rw [isScope_eq, hb] at h
                simpa using h
              simp [namesFor, hiddenNames, hp, hf, ht, he, hb, hbody]
          | false =>
              have hblk : q.isAny blockScopeSymbols = false := by
                simpa [isScope, hp, hf, hb] using h
              have hc : q.is .catchClause = false := by
                cases hc : q.is .catchClause with
                | false => rfl
                | true =>
                    rw [← hblk]
                    exact (Node.isAny_iff.2 ⟨_, by decide, Node.is_iff.1 hc⟩).symm
              have hl : q.is .forInStatement = false := by
                cases hl : q.is .forInStatement with
                | false => rfl
                | true =>
                    rw [← hblk]
                    exact (Node.isAny_iff.2 ⟨_, by decide, Node.is_iff.1 hl⟩).symm
              simp [namesFor, hiddenNames, hp, hf, ht, he, hb, hc, hl, hblk]

theorem strayNames_of_not_isScope (h : q.isScope = false) (part : Node) :
    q.strayNames part = [] := by
  have hf : q.isFunction = false := isFunction_of_isScope h
  have hp : q.is .program = false := by
    cases hp : q.is .program with
    | false => rfl
    | true => simp [isScope, hp] at h
  simp [strayNames, carriedNames, hp, hf]

/-- The kinds of node that can be scopes to the analysis. -/
theorem is_false_of_isScope (h : q.isScope = true) {s : Symbol}
    (hs : s ∉ [Symbol.program, .statementBlock] ++ functionSymbols
      ++ blockScopeSymbols) : q.is s = false := by
  simp only [List.mem_append, List.mem_cons, List.not_mem_nil, or_false,
    not_or] at hs
  obtain ⟨⟨⟨hsp, hsb⟩, hsf⟩, hsl⟩ := hs
  rcases cases_of_isScope h with hk | hk | ⟨hk, -⟩ | ⟨t, ht, hk⟩
  · exact Node.is_false_of_kind (Node.is_iff.1 hk) (Ne.symm hsp)
  · exact Node.is_false_of_isFunction hk hsf
  · exact Node.is_false_of_kind (Node.is_iff.1 hk) (Ne.symm hsb)
  · exact Node.is_false_of_kind hk (by rintro rfl; exact hsl ht)

/-- Class expressions and static blocks are no scopes to the analysis. -/
theorem hiddenNames_of_isScope (h : q.isScope = true) : q.hiddenNames = [] := by
  rw [hiddenNames, is_false_of_isScope h (s := .classStaticBlock) (by decide),
    is_false_of_isScope h (s := .classExpr) (by decide)]
  rfl

-- ============================================ the declarations of a scope

/-- A scope to which something is attributed is a place of the tree. -/
theorem Attributes.scope_mem_walk {v s : Cursor} (h : Attributes v x s)
    (hv : v ∈ (top root).walk) : s ∈ (top root).walk := by
  have hanc : ∀ {barrier : Cursor → Bool},
      v.ancestors.find? barrier = some s → s ∈ (top root).walk := by
    intro barrier hs
    obtain ⟨hp, hr⟩ := mem_walk_top.1 hv
    obtain ⟨h1, h2, -⟩ := hp.of_mem_ancestors (List.mem_of_find?_eq_some hs)
    exact mem_walk_top.2 ⟨h1, h2.trans hr⟩
  cases h with
  | var _ hs => exact hanc hs
  | block _ hs => exact hanc hs
  | own _ => exact hv
  | parameter _ _ => exact hv
  | handler _ _ => exact hv
  | loop _ _ => exact hv
  | imported _ _ =>
      rw [(mem_walk_top.1 hv).2]
      exact self_mem_walk _

/-- The identifiers that the analysis finds for a name in a scope. -/
theorem exists_mem_inScope_iff (hid : root.Identified)
    (hroot : root.is .program = true) (hq : q ∈ (top root).walk)
    (hs : q.isScope = true) (part : Node) :
    (∃ d ∈ inScope (q.declarationsOf name) q, d.identifier = x) ↔
      x.code = name ∧ (x ∈ q.namesFor part ∨ x ∈ q.strayNames part) := by
  obtain ⟨hplaced, hqr⟩ := mem_walk_top.1 hq
  have hattr : (∃ d ∈ inScope (q.declarationsOf name) q, d.identifier = x) ↔
      x.code = name ∧ ∃ v ∈ q.root.walk, Attributes v x q := by
    rw [← exists_mem_declarations]
    constructor
    · rintro ⟨d, hd, rfl⟩
      obtain ⟨hd, hsc⟩ := List.mem_filter.1 hd
      obtain ⟨hd, hn⟩ := List.mem_filter.1 hd
      refine ⟨?_, d, hd, rfl, ?_⟩
      · rw [← name_of_mem_declarations hd]
        simpa using hn
      · cases hds : d.scope with
        | none => simp [hds] at hsc
        | some s =>
            obtain ⟨v, hv, ha⟩ := exists_mem_declarations.1 ⟨d, hd, rfl, hds⟩
            rw [hqr] at hv
            simp only [hds] at hsc
            rw [eq_of_same hid (ha.scope_mem_walk hv) hq hsc]
    · rintro ⟨hn, d, hd, rfl, hds⟩
      refine ⟨d, List.mem_filter.2 ⟨List.mem_filter.2 ⟨hd, ?_⟩, ?_⟩, rfl⟩
      · rw [name_of_mem_declarations hd]
        simpa using hn
      · simp [hds, same]
  have hgiven : ∀ y, (∃ v ∈ q.root.walk, Attributes v y q) ↔
      y ∈ q.namesFor part ∨ y ∈ q.carriedNames := fun y =>
    exists_attributes_iff_of_isScope hplaced (by rw [hqr]; exact hroot) hs part
  have hmem : ∀ y, y ∈ q.namesFor part ∨ y ∈ q.carriedNames →
      y ∈ (top root).walk := by
    intro y hy
    obtain ⟨v, hv, ha⟩ := (hgiven y).2 hy
    rw [hqr] at hv
    exact mem_walk_trans hv ha.mem_walk
  rw [hattr, hgiven x]
  refine and_congr_right fun _ => ?_
  constructor
  · rintro (h | h)
    · exact Or.inl h
    · rw [or_iff_not_imp_left]
      intro hn
      refine List.mem_filter.2 ⟨h, ?_⟩
      rw [Bool.not_eq_true', List.any_eq_false]
      intro y hy hsame
      rw [eq_of_same hid (hmem y (Or.inl hy)) (hmem x (Or.inr h)) hsame] at hy
      exact hn hy
  · rintro (h | h)
    · exact Or.inl h
    · exact Or.inr (List.mem_of_mem_filter h)

/-- What strays to a scope is not what the language binds there. -/
theorem not_mem_namesFor_of_mem_strayNames {part : Node}
    (h : x ∈ q.strayNames part) : x ∉ q.namesFor part := by
  intro hx
  have hn := (List.mem_filter.1 h).2
  rw [Bool.not_eq_true', List.any_eq_false] at hn
  exact hn x hx (by simp [same])

-- ======================================================= the whole way out

/-- The analysis and the language give the same answer: nothing, or one
construct and the same identifiers in it. -/
def SameReading :
    Option (Cursor × List Declaration) → Option (Cursor × List Cursor) → Prop
  | none, none => True
  | some (s, ds), some (t, xs) =>
    s = t ∧ ∀ x, (∃ d ∈ ds, d.identifier = x) ↔ x ∈ xs
  | _, _ => False

theorem mem_of_lookUp {ds : List Declaration} {ss : List Cursor} {s : Cursor}
    {found : List Declaration} (h : lookUp ds ss = some (s, found)) : s ∈ ss := by
  induction ss with
  | nil => cases h
  | cons t ss ih =>
      rw [lookUp] at h
      split at h
      · exact List.mem_cons_of_mem _ (ih h)
      · obtain ⟨rfl, -⟩ := Prod.mk.inj (Option.some.inj h)
        exact List.mem_cons_self

theorem mem_of_lexicalIn {up : List (Node × Nat)} {n : Node} {s : Cursor}
    {found : List Cursor} (h : lexicalIn name n up = some (s, found)) :
    s ∈ ancestorsIn up := by
  induction up generalizing n with
  | nil => cases h
  | cons pi up ih =>
      obtain ⟨p, i⟩ := pi
      rw [lexicalIn] at h
      split at h
      · exact List.mem_cons_of_mem _ (ih h)
      · obtain ⟨rfl, -⟩ := Prod.mk.inj (Option.some.inj h)
        exact List.mem_cons_self

/-- A place is none of its ancestors. -/
theorem ne_of_mem_ancestors (h : p ∈ q.ancestors) : p ≠ q := by
  rintro rfl
  exact Nat.lt_irrefl _ (length_above_lt_of_mem_ancestors h)

theorem any_code_eq_false_iff {xs : List Cursor} :
    xs.any (·.code == name) = false ↔ xs.filter (·.code == name) = [] := by
  simp [List.filter_eq_nil_iff]

/-- One construct that is no scope: the answers differ once it binds the
name. -/
theorem sameReading_step_of_not_isScope {up : List (Node × Nat)} {n p : Node}
    {i : Nat} {ds : List Declaration} (hs : isScope ⟨p, up⟩ = false)
    (ih : SameReading (lookUp ds ((ancestorsIn up).filter isScope))
        (lexicalIn name p up) ↔ readIn name p up = true) :
    SameReading (lookUp ds ((ancestorsIn ((p, i) :: up)).filter isScope))
        (lexicalIn name n ((p, i) :: up)) ↔
      readIn name n ((p, i) :: up) = true := by
  have hchain : (ancestorsIn ((p, i) :: up)).filter isScope
      = (ancestorsIn up).filter isScope := by
    rw [ancestorsIn, List.filter_cons, hs]
    rfl
  have hmis : misreads ⟨p, up⟩ n name
      = (namesFor ⟨p, up⟩ n).any (·.code == name) := by
    rw [misreads, strayNames_of_not_isScope hs, namesFor_of_not_isScope hs,
      List.append_nil]
  rw [hchain, lexicalIn, readIn, hmis]
  cases hf : (namesFor ⟨p, up⟩ n).filter (·.code == name) with
  | nil =>
      rw [any_code_eq_false_iff.2 hf]
      simpa using ih
  | cons y ys =>
      have hany : (namesFor ⟨p, up⟩ n).any (·.code == name) = true := by
        rw [← Bool.not_eq_false, any_code_eq_false_iff, hf]
        simp
      rw [hany]
      simp only [Bool.not_true, Bool.false_and, Bool.false_eq_true, iff_false]
      intro h
      cases hl : lookUp ds ((ancestorsIn up).filter isScope) with
      | none => rw [hl] at h; exact h
      | some found =>
          obtain ⟨s, found⟩ := found
          rw [hl] at h
          have hmem := List.mem_of_mem_filter (mem_of_lookUp hl)
          exact ne_of_mem_ancestors (q := ⟨p, up⟩) hmem h.1

/-- One scope: the answers agree there as long as nothing strays to
it. -/
theorem sameReading_step_of_isScope (hid : root.Identified)
    (hroot : root.is .program = true) {up : List (Node × Nat)} {n p : Node}
    {i : Nat} (hq : (⟨p, up⟩ : Cursor) ∈ (top root).walk)
    (hs : isScope ⟨p, up⟩ = true)
    (ih : SameReading (lookUp ((top root).declarationsOf name)
          ((ancestorsIn up).filter isScope))
        (lexicalIn name p up) ↔ readIn name p up = true) :
    SameReading (lookUp ((top root).declarationsOf name)
          ((ancestorsIn ((p, i) :: up)).filter isScope))
        (lexicalIn name n ((p, i) :: up)) ↔
      readIn name n ((p, i) :: up) = true := by
  have hchain : (ancestorsIn ((p, i) :: up)).filter isScope
      = ⟨p, up⟩ :: (ancestorsIn up).filter isScope := by
    rw [ancestorsIn, List.filter_cons, hs]
    rfl
  have hds : (top root).declarationsOf name
      = (⟨p, up⟩ : Cursor).declarationsOf name := by
    rw [declarationsOf, declarationsOf, (mem_walk_top.1 hq).2]
    rfl
  have hgiven : ∀ x, (∃ d ∈ inScope ((⟨p, up⟩ : Cursor).declarationsOf name)
      ⟨p, up⟩, d.identifier = x) ↔ x.code = name
        ∧ (x ∈ namesFor ⟨p, up⟩ n ∨ x ∈ strayNames ⟨p, up⟩ n) := fun x =>
    exists_mem_inScope_iff hid hroot hq hs n
  have hmis : misreads ⟨p, up⟩ n name
      = (strayNames ⟨p, up⟩ n).any (·.code == name) := by
    rw [misreads, hiddenNames_of_isScope hs, List.nil_append]
  rw [hchain, lookUp, lexicalIn, readIn, hmis]
  cases hstray : (strayNames ⟨p, up⟩ n).any (·.code == name) with
  | false =>
      -- what the scope is given is what the language binds there
      have hsame : ∀ x, (∃ d ∈ inScope ((top root).declarationsOf name) ⟨p, up⟩,
          d.identifier = x) ↔
            x ∈ (namesFor ⟨p, up⟩ n).filter (·.code == name) := by
        intro x
        rw [hds, hgiven x, List.mem_filter, and_comm, beq_iff_eq]
        refine and_congr_left fun hx => or_iff_left ?_
        intro hmem
        have := List.any_eq_false.1 hstray x hmem
        simp [hx] at this
      cases hf : (namesFor ⟨p, up⟩ n).filter (·.code == name) with
      | nil =>
          rw [any_code_eq_false_iff.2 hf]
          have hnil : inScope ((top root).declarationsOf name) ⟨p, up⟩ = [] := by
            rw [List.eq_nil_iff_forall_not_mem]
            intro d hd
            have := (hsame d.identifier).1 ⟨d, hd, rfl⟩
            rw [hf] at this
            cases this
          rw [hnil]
          simpa using ih
      | cons y ys =>
          have hany : (namesFor ⟨p, up⟩ n).any (·.code == name) = true := by
            rw [← Bool.not_eq_false, any_code_eq_false_iff, hf]
            simp
          rw [hf] at hsame
          cases hd : inScope ((top root).declarationsOf name) ⟨p, up⟩ with
          | nil =>
              obtain ⟨d, hmem, -⟩ := (hsame y).2 List.mem_cons_self
              rw [hd] at hmem
              cases hmem
          | cons d ds =>
              rw [hd] at hsame
              simp only [hany, Bool.not_false, Bool.true_or, Bool.and_self,
                iff_true]
              exact ⟨rfl, hsame⟩
  | true =>
      obtain ⟨x, hx, hcode⟩ := List.any_eq_true.1 hstray
      obtain ⟨d, hd, hdx⟩ := (hgiven x).2 ⟨by simpa using hcode, Or.inr hx⟩
      rw [← hds] at hd
      simp only [Bool.not_true, Bool.false_and, Bool.false_eq_true, iff_false]
      cases hin : inScope ((top root).declarationsOf name) ⟨p, up⟩ with
      | nil => rw [hin] at hd; cases hd
      | cons e es =>
          rw [hin] at hd
          cases hf : (namesFor ⟨p, up⟩ n).filter (·.code == name) with
          | cons y ys =>
              intro h
              have hmem := (h.2 x).1 ⟨d, hd, hdx⟩
              rw [← hf] at hmem
              exact not_mem_namesFor_of_mem_strayNames hx
                (List.mem_of_mem_filter hmem)
          | nil =>
              intro h
              cases hl : lexicalIn name p up with
              | none => rw [hl] at h; exact h
              | some found =>
                  obtain ⟨t, found⟩ := found
                  rw [hl] at h
                  exact ne_of_mem_ancestors (q := ⟨p, up⟩) (mem_of_lexicalIn hl)
                    h.1.symm

/-- The answers agree from a place outwards exactly as long as no
construct is misread. -/
theorem sameReading_iff_readIn (hid : root.Identified)
    (hroot : root.is .program = true) (above : List (Node × Nat)) (n : Node)
    (hn : (⟨n, above⟩ : Cursor) ∈ (top root).walk) :
    SameReading
        (lookUp ((top root).declarationsOf name)
          ((ancestorsIn above).filter isScope))
        (lexicalIn name n above) ↔ readIn name n above = true := by
  induction above generalizing n with
  | nil => simp [ancestorsIn, lookUp, lexicalIn, readIn, SameReading]
  | cons pi up ih =>
      obtain ⟨p, i⟩ := pi
      obtain ⟨hplaced, hr⟩ := mem_walk_top.1 hn
      have hq : (⟨p, up⟩ : Cursor) ∈ (top root).walk :=
        mem_walk_top.2 ⟨hplaced.2, hr⟩
      cases hs : isScope ⟨p, up⟩ with
      | false => exact sameReading_step_of_not_isScope hs (ih p hq)
      | true => exact sameReading_step_of_isScope hid hroot hq hs (ih p hq)

end Cursor

open Cursor in
/-- For every identifier of a parsed program the analysis gives the
answer of the language if and only if no construct on the way out to the
binding is misread. -/
theorem binding?_iff_isReadAright {source : Text} {n : Node}
    (h : parse source = .ok n) {c : Cursor} (hc : c ∈ (top n).walk)
    (hk : c.isAny [.identifier, .shorthandPropertyIdentifier] = true)
    (name : Text) :
    SameReading (c.binding? name) (c.lexical? name) ↔
      c.isReadAright name = true := by
  have hs : c.isScope = false := by
    obtain ⟨s, hs, hkind⟩ := Node.isAny_iff.1 hk
    have hno : ∀ t ∈ [Symbol.identifier, .shorthandPropertyIdentifier],
        t ∉ [Symbol.program, .statementBlock] ++ functionSymbols
          ++ blockScopeSymbols := by decide
    rw [Bool.eq_false_iff]
    intro hscope
    have hfalse := is_false_of_isScope hscope (hno s hs)
    rw [show c.is s = true from Node.is_iff.2 hkind] at hfalse
    cases hfalse
  have hds : c.declarationsOf name = (top n).declarationsOf name := by
    rw [declarationsOf, declarationsOf, (mem_walk_top.1 hc).2]
    rfl
  rw [binding?, scopeChain, List.filter_cons, hs, hds]
  exact sameReading_iff_readIn (parse_identified h) (parse_program h) c.above
    c.node hc

open Cursor in
/-- A block shadows a name of the program, and the analysis agrees. -/
theorem binding?_agrees_in_block :
    ∃ n c, parse (Text.ofString "let x; { let x; x; }") = .ok n
      ∧ c ∈ (top n).walk ∧ c.isReadAright c.code = true
      ∧ SameReading (c.binding? c.code) (c.lexical? c.code) := by
  have h : holdsAt (Text.ofString "let x; { let x; x; }") [1, 2, 0] (fun c =>
      c.isAny [.identifier, .shorthandPropertyIdentifier]
        && c.isReadAright c.code) = true := by decide +kernel
  obtain ⟨n, c, hn, hc, ht⟩ := exists_of_holdsAt h
  obtain ⟨hk, hr⟩ := Bool.and_eq_true_iff.1 ht
  exact ⟨n, c, hn, hc, hr, (binding?_iff_isReadAright hn hc hk c.code).2 hr⟩

open Cursor in
/-- The name of a class expression is bound inside the class, and the
analysis finds no binding for it. -/
theorem binding?_misses_class_name :
    ∃ n c, parse (Text.ofString "(class A { m() { A; } });") = .ok n
      ∧ c ∈ (top n).walk ∧ c.is .identifier = true
      ∧ c.binding? c.code = none ∧ c.lexical? c.code ≠ none := by
  have h : holdsAt (Text.ofString "(class A { m() { A; } });")
      [0, 0, 1, 2, 1, 2, 1, 0] (fun c => c.is .identifier
        && (c.binding? c.code).isNone && (c.lexical? c.code).isSome) = true := by
    decide +kernel
  obtain ⟨n, c, hn, hc, ht⟩ := exists_of_holdsAt h
  simp only [Bool.and_eq_true, Option.isNone_iff_eq_none,
    Option.isSome_iff_ne_none] at ht
  exact ⟨n, c, hn, hc, ht.1.1, ht.1.2, ht.2⟩

end Codemod
