/-
Numbers as they are read.

A number that is read from a program is written in ASCII
(`ascii_of_mem_numberLength`), so that its digits, if it has nothing
else, are those of base ten (`Node.IsToken.digits`).
-/
import Mathlib.Data.List.Basic
import Codemod.Proofs.Parse.Value
import Codemod.Proofs.Text.Numeral

namespace Codemod

namespace Parse

-- ================================================================ ASCII

/-- The character is one of ASCII. -/
def IsAscii (c : Char) : Prop := c.toNat < 128

instance (c : Char) : Decidable (IsAscii c) :=
  inferInstanceAs (Decidable (c.toNat < 128))

theorem isAscii_of_isHexDigit {c : Char} (h : isHexDigit c = true) : IsAscii c := by
  have hdigit : c.isDigit = true → '0' ≤ c ∧ c ≤ '9' := Char.isDigit_iff_toNat.1
  simp only [isHexDigit, Bool.or_eq_true, Bool.and_eq_true, decide_eq_true_eq] at h
  unfold IsAscii
  rcases h with (h | ⟨-, h⟩) | ⟨-, h⟩
  · have hle : c.toNat ≤ 57 := (hdigit h).2
    omega
  · have hle : c.toNat ≤ 102 := h
    omega
  · have hle : c.toNat ≤ 70 := h
    omega

theorem isAscii_of_isDigit {c : Char} (h : c.isDigit = true) : IsAscii c :=
  isAscii_of_isHexDigit (by simp [isHexDigit, h])

section Lengths

variable {p : Char → Bool} {cs : List Char}

/-- What stands in the first `a + b` places stands in the first `a` or in
the `b` behind them. -/
theorem of_mem_take_add {P : Char → Prop} {a b : Nat} (ha : ∀ c ∈ cs.take a, P c)
    (hb : ∀ c ∈ (cs.drop a).take b, P c) : ∀ c ∈ cs.take (a + b), P c := by
  intro c hc
  rw [List.take_add, List.mem_append] at hc
  exact hc.elim (ha c) (hb c)

theorem of_mem_take_one {P : Char → Prop} {c : Char} (hc : P c) :
    ∀ d ∈ (c :: cs).take 1, P d := by
  simpa using hc

/-- Digits are written in ASCII where their base says so, and so are the
underscores between them. -/
theorem ascii_of_mem_digitsLength (hp : ∀ c, p c = true → IsAscii c) :
    ∀ c ∈ cs.take (digitsLength p cs), IsAscii c := by
  fun_induction digitsLength p cs with
  | case1 => exact List.forall_mem_nil _
  | case2 c hc => exact of_mem_take_one (hp c hc)
  | case3 => exact List.forall_mem_nil _
  | case4 => exact List.forall_mem_nil _
  | case5 c d hc hd e es he ih =>
      have hd : d = '_' := by simpa using hd
      have hc : IsAscii c := hp c (by simpa using hc)
      rw [List.take_succ_cons, List.take_succ_cons, List.forall_mem_cons, List.forall_mem_cons]
      exact ⟨hc, hd ▸ by decide, ih⟩
  | case6 c d hc => exact of_mem_take_one (hp c (by simpa using hc))
  | case7 c d hc => exact of_mem_take_one (hp c (by simpa using hc))
  | case8 c d cs hc hd ih =>
      rw [List.take_succ_cons, List.forall_mem_cons]
      exact ⟨hp c (by simpa using hc), ih⟩

theorem ascii_of_mem_exponentLength : ∀ c ∈ cs.take (exponentLength cs), IsAscii c := by
  have hdigits (ds : List Char) : ∀ c ∈ ds.take (digitsLength Char.isDigit ds), IsAscii c :=
    ascii_of_mem_digitsLength fun _ => isAscii_of_isDigit
  unfold exponentLength
  split
  · next e cs =>
      split
      · next he =>
          have he : IsAscii e := by
            have hmark : e = 'e' ∨ e = 'E' := by simpa using he
            rcases hmark with rfl | rfl <;> decide
          -- the digits stand behind the mark and the sign
          have hbehind {sign : Nat} (hsign : ∀ c ∈ cs.take sign, IsAscii c) :
              ∀ c ∈ (e :: cs).take (if digitsLength Char.isDigit (cs.drop sign) = 0 then 0
                else 1 + sign + digitsLength Char.isDigit (cs.drop sign)), IsAscii c := by
            split
            · exact List.forall_mem_nil _
            · rw [Nat.add_assoc]
              exact of_mem_take_add (of_mem_take_one he) (of_mem_take_add hsign (hdigits _))
          dsimp only
          split
          · exact hbehind (of_mem_take_one (by decide))
          · exact hbehind (of_mem_take_one (by decide))
          · exact hbehind (List.forall_mem_nil _)
      · exact List.forall_mem_nil _
  · exact List.forall_mem_nil _

theorem ascii_of_mem_basedLength (hp : ∀ c, p c = true → IsAscii c) {z m : Char}
    (hz : IsAscii z) (hm : IsAscii m) :
    ∀ c ∈ (z :: m :: cs).take (basedLength p cs), IsAscii c := by
  have hdigits : ∀ c ∈ cs.take (digitsLength p cs), IsAscii c := ascii_of_mem_digitsLength hp
  unfold basedLength
  dsimp only
  split
  · exact of_mem_take_one hz
  split
  · next ds hn =>
      rw [List.take_succ_cons, List.take_succ_cons, List.forall_mem_cons, List.forall_mem_cons]
      refine ⟨hz, hm, of_mem_take_add hdigits ?_⟩
      rw [hn]
      exact of_mem_take_one (by decide)
  · rw [List.take_succ_cons, List.take_succ_cons, List.forall_mem_cons, List.forall_mem_cons]
    exact ⟨hz, hm, hdigits⟩

theorem ascii_of_mem_decimalLength : ∀ c ∈ cs.take (decimalLength cs), IsAscii c := by
  have hdigits (ds : List Char) : ∀ c ∈ ds.take (digitsLength Char.isDigit ds), IsAscii c :=
    ascii_of_mem_digitsLength fun _ => isAscii_of_isDigit
  unfold decimalLength
  dsimp only
  split
  · next ds hn =>
      split
      · exact List.forall_mem_nil _
      · apply of_mem_take_add (hdigits cs)
        rw [hn]
        exact of_mem_take_one (by decide)
  · next rest hn =>
      split
      · exact List.forall_mem_nil _
      · rw [Nat.add_assoc, Nat.add_assoc]
        apply of_mem_take_add (hdigits cs)
        rw [hn]
        refine of_mem_take_add (P := IsAscii) (of_mem_take_one (by decide)) ?_
        exact of_mem_take_add (hdigits rest) ascii_of_mem_exponentLength
  · split
    · exact List.forall_mem_nil _
    · exact of_mem_take_add (hdigits cs) ascii_of_mem_exponentLength

/-- A number is written in ASCII. -/
theorem ascii_of_mem_numberLength : ∀ c ∈ cs.take (numberLength cs), IsAscii c := by
  have hmark (marks : List Char) {m : Char} (h : m ∈ marks)
      (hall : marks.all (fun m => m.toNat < 128) = true) : IsAscii m :=
    of_decide_eq_true (List.all_eq_true.1 hall m h)
  unfold numberLength
  split
  · next m cs =>
      split
      · next hm =>
          exact ascii_of_mem_basedLength (fun _ => isAscii_of_isHexDigit) (by decide)
            (hmark ['x', 'X'] (by simpa using hm) (by decide))
      split
      · next hm =>
          refine ascii_of_mem_basedLength (fun c hc => ?_) (by decide)
            (hmark ['o', 'O'] (by simpa using hm) (by decide))
          exact isAscii_of_isDigit (Numeral.isOctal_iff.1 hc).1
      split
      · next hm =>
          refine ascii_of_mem_basedLength (fun c hc => ?_) (by decide)
            (hmark ['b', 'B'] (by simpa using hm) (by decide))
          exact hmark ['0', '1'] (by simpa using hc) (by decide)
      · exact ascii_of_mem_decimalLength
  · exact ascii_of_mem_decimalLength

end Lengths

end Parse

-- =============================================================== digits

/-- The digits of ASCII are those of base ten. -/
theorem Point.isDigit_of_isAscii {c : Char} (hc : Parse.IsAscii c)
    (h : (Point.scalar c).isDigit = true) : c.isDigit = true := by
  have hcode : (Point.scalar c).code < 128 := hc
  have hzeros : ∀ z ∈ decimalZeros, z < 128 → z = 48 := by decide
  have hothers : ∀ r ∈ otherDigitRanges, 128 ≤ r.1 := by decide
  simp only [Point.isDigit, Bool.or_eq_true, Point.decimal?, Option.isSome_map,
    List.find?_isSome, Bool.and_eq_true, decide_eq_true_eq] at h
  rcases h with ⟨z, hz, hle, hlt⟩ | h
  · obtain rfl := hzeros z hz (Nat.lt_of_le_of_lt hle hcode)
    exact Char.isDigit_iff_toNat.2 ⟨hle, Nat.lt_succ_iff.1 hlt⟩
  · obtain ⟨r, hr, hin⟩ := List.any_eq_true.1 h
    have hlow := hothers r hr
    simp only [Bool.and_eq_true, decide_eq_true_eq] at hin
    omega

/-- A number that is all digits is written in those of base ten. -/
theorem Node.IsToken.digits {n : Node} (h : n.IsToken) (hk : n.is .number = true)
    (hd : n.code.all Point.isDigit = true) :
    ∃ cs, n.code = Text.ofChars cs ∧ ∀ c ∈ cs, c.isDigit = true := by
  rcases h hk with ⟨cs, -, hcode⟩ | hcode
  · refine ⟨_, hcode, fun c hc => ?_⟩
    rw [hcode] at hd
    have hpoint := List.all_eq_true.1 hd _ (List.mem_map_of_mem hc)
    exact Point.isDigit_of_isAscii (Parse.ascii_of_mem_numberLength c hc) hpoint
  · rw [hcode] at hd
    exact absurd hd (by decide)

end Codemod
