/-
Integer literals in the tree.

`n.Spells negative t` says that the expression `n` is a number spelled
`t`, in any number of parentheses, with a minus in front of it or not. An
integer is read off an expression exactly when it spells digits
(`Cursor.integerValue_eq_some_iff`).
-/
import Codemod.Proofs.Effect.Call
import Codemod.Proofs.Text.Numeral
import Mathlib.Tactic.Tauto

namespace Codemod

/-- A number behind a minus, or as it is. -/
def signed {α : Type} [Neg α] (negative : Bool) (x : α) : α :=
  if negative then -x else x

namespace Node

/-- The expression is a number spelled `t`, behind a minus if
`negative`. -/
inductive Spells : Node → Bool → Text → Prop where
  | number {n : Node} : n.is .number = true → Spells n false n.code
  | minus {n op a : Node} {t : Text} : n.is .unaryExpression = true →
    n.child? .operator = some op → op.code = Text.ofString "-" →
    n.child? .argument = some a → Spells a false t → Spells n true t
  | parens {n e : Node} {negative : Bool} {t : Text} :
    n.is .parenthesizedExpression = true → n.operands = [e] →
    Spells e negative t → Spells n negative t

/-- A node is of one kind. -/
theorem kind_unique {n : Node} {s s' : Symbol} (h : n.is s = true) (h' : n.is s' = true) :
    s = s' := by
  simp only [Node.is, beq_iff_eq] at h h'
  exact Kind.symbol.inj (h.symm.trans h')

theorem strip_of_kind {n : Node} {s : Symbol} (h : n.is s = true)
    (hs : s ≠ .parenthesizedExpression) : n.strip = n :=
  strip_of_no_operand fun hp => absurd (kind_unique h hp) hs

theorem Spells.of_strip {n : Node} {negative : Bool} {t : Text}
    (h : n.strip.Spells negative t) : n.Spells negative t := by
  induction n using Node.ind with
  | h n ih =>
      by_cases hone : n.is .parenthesizedExpression = true ∧ ∃ e, n.operands = [e]
      · obtain ⟨hk, e, he⟩ := hone
        have hmem : e ∈ n.children := List.mem_of_mem_filter
          (show e ∈ n.operands by rw [he]; exact List.mem_singleton.2 rfl)
        rw [strip_of_operands hk he] at h
        exact .parens hk he (ih e hmem h)
      · rwa [strip_of_no_operand fun hk e he => hone ⟨hk, e, he⟩] at h

/-- Without the parentheses around it, what spells a number is a number
or a minus before one. -/
theorem Spells.cases_strip {n : Node} {negative : Bool} {t : Text}
    (h : n.Spells negative t) :
    (negative = false ∧ n.strip.is .number = true ∧ n.strip.code = t)
      ∨ (negative = true ∧ n.strip.is .unaryExpression = true
        ∧ ∃ op a, n.strip.child? .operator = some op ∧ op.code = Text.ofString "-"
          ∧ n.strip.child? .argument = some a ∧ a.Spells false t) := by
  induction h with
  | number hk =>
      rw [strip_of_kind hk (by decide)]
      exact Or.inl ⟨rfl, hk, rfl⟩
  | minus hk hop hcode ha hs _ =>
      rw [strip_of_kind hk (by decide)]
      exact Or.inr ⟨rfl, hk, _, _, hop, hcode, ha, hs⟩
  | parens hk he _ ih => rwa [strip_of_operands hk he]

/-- What spells a number has a node for it. -/
theorem Spells.exists_number {n : Node} {negative : Bool} {t : Text}
    (h : n.Spells negative t) : ∃ m ∈ n.walk, m.is .number = true ∧ m.code = t := by
  induction h with
  | @number n hk => exact ⟨n, self_mem_walk n, hk, rfl⟩
  | minus _ _ _ ha _ ih =>
      obtain ⟨m, hm, hnum⟩ := ih
      exact ⟨m, mem_walk_of_child (List.mem_of_find?_eq_some ha) hm, hnum⟩
  | parens _ he _ ih =>
      obtain ⟨m, hm, hnum⟩ := ih
      have hmem := List.mem_of_mem_filter (he ▸ List.mem_singleton.2 rfl)
      exact ⟨m, mem_walk_of_child hmem hm, hnum⟩

theorem Spells.code_strip {n : Node} {t : Text} (h : n.Spells false t) : n.strip.code = t := by
  rcases h.cases_strip with ⟨-, -, hcode⟩ | ⟨habs, -⟩
  · exact hcode
  · cases habs

/-- An expression spells one number. -/
theorem Spells.unique {n : Node} {negative negative' : Bool} {t t' : Text}
    (h : n.Spells negative t) (h' : n.Spells negative' t') :
    negative = negative' ∧ t = t' := by
  rcases h.cases_strip with ⟨rfl, hk, rfl⟩ | ⟨rfl, hk, op, a, hop, -, ha, hs⟩
  · rcases h'.cases_strip with ⟨rfl, -, rfl⟩ | ⟨-, hk', -⟩
    · exact ⟨rfl, rfl⟩
    · exact absurd (kind_unique hk hk') (by decide)
  · rcases h'.cases_strip with ⟨-, hk', -⟩ | ⟨rfl, -, op', a', hop', -, ha', hs'⟩
    · exact absurd (kind_unique hk hk') (by decide)
    · obtain rfl := Option.some.inj (ha.symm.trans ha')
      exact ⟨rfl, hs.code_strip.symm.trans hs'.code_strip⟩

-- =============================================================== values

/-- The expression is a number, perhaps negated, and the language gives it
the value `v`. -/
def Denotes (n : Node) (v : ℚ) : Prop :=
  ∃ negative cs x, n.Spells negative (Text.ofChars cs) ∧ Numeral.value? cs = some x
    ∧ v = signed negative x

/-- The expression is a legacy octal, perhaps negated, of eight or more. -/
def IsLongOctal (n : Node) : Prop :=
  ∃ negative cs, n.Spells negative (Text.ofChars cs) ∧ Numeral.isLegacyOctal cs = true
    ∧ 8 ≤ Nat.ofDigitChars 8 cs 0

theorem Spells.unique_chars {n : Node} {negative negative' : Bool} {cs cs' : List Char}
    (h : n.Spells negative (Text.ofChars cs)) (h' : n.Spells negative' (Text.ofChars cs')) :
    negative = negative' ∧ cs = cs' := by
  obtain ⟨hsign, ht⟩ := h.unique h'
  exact ⟨hsign, List.map_injective_iff.2 (fun _ _ => Point.scalar.inj) ht⟩

/-- An expression has one value. -/
theorem Denotes.unique {n : Node} {v v' : ℚ} (h : n.Denotes v) (h' : n.Denotes v') :
    v = v' := by
  obtain ⟨negative, cs, x, hs, hx, rfl⟩ := h
  obtain ⟨negative', cs', x', hs', hx', rfl⟩ := h'
  obtain ⟨rfl, rfl⟩ := hs.unique_chars hs'
  rw [Option.some.inj (hx.symm.trans hx')]

/-- Digits, perhaps negated, denote what they denote in base ten, unless
they are a legacy octal of eight or more; without a minus, never more. -/
theorem Spells.denotes {n : Node} {negative : Bool} {cs : List Char} {k : Int}
    (h : n.Spells negative (Text.ofChars cs)) (hne : cs ≠ [])
    (hd : ∀ c ∈ cs, c.isDigit = true)
    (hk : k = signed negative (Int.ofNat (Nat.ofDigitChars 10 cs 0))) :
    ∃ v, n.Denotes v ∧ (v = k ↔ ¬ n.IsLongOctal) ∧ (0 ≤ k → v ≤ k) := by
  refine ⟨_, ⟨negative, cs, _, h, Numeral.value?_of_digits hne hd, rfl⟩, ?_⟩
  have hlong : n.IsLongOctal ↔ Numeral.isLegacyOctal cs = true
      ∧ 8 ≤ Nat.ofDigitChars 8 cs 0 := by
    constructor
    · rintro ⟨negative', cs', hs, hoct⟩
      obtain ⟨-, rfl⟩ := h.unique_chars hs
      exact hoct
    · exact fun hoct => ⟨negative, cs, h, hoct⟩
  have hsigned (a : ℕ) : signed negative (a : ℚ) = k ↔ a = Nat.ofDigitChars 10 cs 0 := by
    rw [hk]
    cases negative <;> simp [signed]
  have hle {a : ℕ} (ha : a ≤ Nat.ofDigitChars 10 cs 0) (hpos : 0 ≤ k) :
      signed negative (a : ℚ) ≤ k := by
    have hcast : (a : ℚ) ≤ (Nat.ofDigitChars 10 cs 0 : ℕ) := Nat.cast_le.2 ha
    cases negative with
    | false => simpa [hk, signed] using hcast
    | true =>
        have hzero : Nat.ofDigitChars 10 cs 0 = 0 := by
          simpa [hk, signed] using hpos
        exact ((hsigned a).2 (by omega)).le
  rw [hlong, hsigned]
  cases hoct : Numeral.isLegacyOctal cs with
  | false => exact ⟨by simp, hle (Nat.le_refl _)⟩
  | true =>
      have hall : cs.all Numeral.isOctal = true :=
        List.all_eq_true.2 (Numeral.all_of_isLegacyOctal hoct)
      obtain ⟨hless, hiff⟩ := Numeral.ofDigitChars_ten_of_isOctal hall
      simp only [if_true, true_and, Nat.not_le]
      exact ⟨by rw [← hiff, eq_comm], hle hless⟩

end Node

namespace Cursor

variable {c : Cursor}

/-- The child of a node in a role is that of the place. -/
theorem node_child?_eq_some_iff {r : Role} {d : Node} :
    c.node.child? r = some d ↔ ∃ e, c.child? r = some e ∧ e.node = d := by
  rw [Node.child?, ← map_node_child?, Option.map_eq_some_iff]

theorem digitsValue_eq_some_iff {m : Nat} :
    c.digitsValue = .ok (some m) ↔ c.is .number = true ∧ c.code ≠ []
      ∧ c.code.all Point.isDigit = true ∧ readDigits c.code = .ok m := by
  have hmap : (readDigits c.code).map some = .ok (some m) ↔ readDigits c.code = .ok m := by
    cases readDigits c.code <;> simp [Except.map]
  unfold digitsValue
  by_cases hk : c.is .number = true ∧ c.code ≠ [] ∧ c.code.all Point.isDigit = true
  · rw [if_pos (by simpa [and_assoc] using hk), hmap]
    tauto
  · rw [if_neg (by simpa [and_assoc] using hk)]
    simp only [Except.ok.injEq, reduceCtorEq, false_iff]
    tauto

/-- A negated integer is read off the digits behind the minus. -/
theorem integerValue_of_unary {k : Int} (hk : c.unparen.is .unaryExpression = true) :
    c.integerValue = .ok (some k) ↔ ∃ op a m, c.unparen.child? .operator = some op
      ∧ op.code = Text.ofString "-" ∧ c.unparen.child? .argument = some a
      ∧ a.unparen.digitsValue = .ok (some m) ∧ k = -Int.ofNat m := by
  unfold integerValue
  simp only [hk, if_true, inner?]
  cases hop : c.unparen.child? .operator with
  | none => simp [pure_eq_ok]
  | some op =>
      cases ha : c.unparen.child? .argument with
      | none => simp [pure_eq_ok]
      | some a =>
          by_cases hminus : op.code = Text.ofString "-"
          · cases hm : a.unparen.digitsValue with
            | error f => simp [hminus, hm, bind, Except.bind]
            | ok m => cases m <;> simp [hminus, hm, bind, Except.bind, pure, Except.pure, eq_comm]
          · simp [hminus, pure_eq_ok]

theorem integerValue_of_not_unary {k : Int}
    (hk : c.unparen.is .unaryExpression = false) :
    c.integerValue = .ok (some k) ↔ ∃ m,
      c.unparen.digitsValue = .ok (some m) ∧ k = Int.ofNat m := by
  unfold integerValue
  simp only [hk, Bool.false_eq_true, if_false]
  cases hm : c.unparen.digitsValue with
  | error f => simp [bind, Except.bind]
  | ok m => cases m <;> simp [bind, Except.bind, pure, Except.pure, eq_comm]

/-- An integer is read off an expression that spells digits, and it has
the value of the digits and the sign of the expression. -/
theorem integerValue_eq_some_iff {k : Int} :
    c.integerValue = .ok (some k) ↔ ∃ negative t m, c.node.Spells negative t
      ∧ t ≠ [] ∧ t.all Point.isDigit = true ∧ readDigits t = .ok m
      ∧ k = signed negative (Int.ofNat m) := by
  have hstrip := node_unparen c
  constructor
  · intro h
    cases hk : c.unparen.is .unaryExpression with
    | true =>
        obtain ⟨op, a, m, hop, hcode, ha, hm, rfl⟩ := (integerValue_of_unary hk).1 h
        obtain ⟨hnum, hne, hall, hread⟩ := digitsValue_eq_some_iff.1 hm
        have harg : a.node.Spells false a.unparen.code := by
          apply Node.Spells.of_strip
          rw [← node_unparen a]
          exact .number hnum
        refine ⟨true, a.unparen.code, m, ?_, hne, hall, hread, rfl⟩
        apply Node.Spells.of_strip
        rw [← hstrip]
        exact .minus hk (node_child?_eq_some_iff.2 ⟨op, hop, rfl⟩) hcode
          (node_child?_eq_some_iff.2 ⟨a, ha, rfl⟩) harg
    | false =>
        obtain ⟨m, hm, rfl⟩ := (integerValue_of_not_unary hk).1 h
        obtain ⟨hnum, hne, hall, hread⟩ := digitsValue_eq_some_iff.1 hm
        refine ⟨false, c.unparen.code, m, ?_, hne, hall, hread, rfl⟩
        apply Node.Spells.of_strip
        rw [← hstrip]
        exact .number hnum
  · rintro ⟨negative, t, m, hs, hne, hall, hread, rfl⟩
    have hcases := hs.cases_strip
    rw [← hstrip] at hcases
    rcases hcases with ⟨rfl, hnum, rfl⟩ | ⟨rfl, hk, op, a, hop, hcode, ha, harg⟩
    · have hk : c.unparen.is .unaryExpression = false := by
        rw [Bool.eq_false_iff]
        exact fun hu => absurd (Node.kind_unique hnum hu) (by decide)
      apply (integerValue_of_not_unary hk).2
      exact ⟨m, digitsValue_eq_some_iff.2 ⟨hnum, hne, hall, hread⟩, rfl⟩
    · obtain ⟨op', hop', rfl⟩ := node_child?_eq_some_iff.1 hop
      obtain ⟨a', ha', rfl⟩ := node_child?_eq_some_iff.1 ha
      rcases harg.cases_strip with ⟨-, hnum, hcode'⟩ | ⟨habs, -⟩
      · rw [← node_unparen a'] at hnum hcode'
        apply (integerValue_of_unary hk).2
        refine ⟨op', a', m, hop', hcode, ha', ?_, rfl⟩
        apply digitsValue_eq_some_iff.2
        rw [show a'.unparen.code = t from hcode']
        exact ⟨hnum, hne, hall, hread⟩
      · cases habs

theorem integerValue_unparen : c.unparen.integerValue = c.integerValue := by
  unfold integerValue
  rw [unparen_unparen]

end Cursor

end Codemod
