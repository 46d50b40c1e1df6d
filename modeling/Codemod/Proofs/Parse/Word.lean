/-
Words.

Letters, numbers and the underscore are characters of names
(`isNamePart_of_isWord`), and a word made of such characters is read to
its end, where what follows it does not go on with a name
(`read_append_word`). A text reads as a word when that is so of whatever
may follow it.
-/
import Codemod.Parse.Lexeme
import Codemod.Proofs.Text.Name

namespace Codemod.Parse

variable {c : Char} {cs rest : List Char} {fuel : Nat}

-- =========================================================== characters

/-- The characters that no name contains: controls, gaps and
punctuation. -/
def boundaryRanges : List (Nat × Nat) := [
  (0x0, 0x23), (0x25, 0x2F), (0x3A, 0x40), (0x5B, 0x5E), (0x60, 0x60),
  (0x7B, 0x7E), (0xA0, 0xA0), (0x1680, 0x1680), (0x2000, 0x200B),
  (0x2028, 0x2029), (0x202F, 0x202F), (0x205F, 0x2060), (0x3000, 0x3000),
  (0xFEFF, 0xFEFF)]

set_option maxRecDepth 8000 in
theorem boundary_apart : apart alphanumericRanges boundaryRanges = true := by
  decide

theorem inRanges_boundary_of_isSpaceSeparator (h : isSpaceSeparator c = true) :
    inRanges c.toNat boundaryRanges = true := by
  simp only [isSpaceSeparator, Bool.or_eq_true, Bool.and_eq_true, decide_eq_true_eq,
    beq_iff_eq] at h
  rcases h with (((((h | h) | h) | h) | h) | h) | h
  case inl.inl.inl.inr =>
    exact inRanges_iff.2 ⟨(0x2000, 0x200B), by decide, by omega, by omega⟩
  all_goals
    rw [h]
    decide

theorem inRanges_boundary_of_isGap (h : isGap c = true) :
    inRanges c.toNat boundaryRanges = true := by
  simp only [isGap, Bool.or_eq_true, Bool.and_eq_true, decide_eq_true_eq, beq_iff_eq] at h
  rcases h with (((((h | h) | h) | h) | h) | h) | h
  case inl.inl.inl.inl.inl.inl =>
    exact inRanges_iff.2 ⟨(0x0, 0x23), by decide, by omega, by omega⟩
  case inl.inl.inl.inl.inl.inr => exact inRanges_boundary_of_isSpaceSeparator h
  all_goals
    rw [h]
    decide

theorem inRanges_boundary (h : isNamePart c = false) :
    inRanges c.toNat boundaryRanges = true := by
  have hpunctuation :
      (namePunctuation.all fun d => inRanges d.toNat boundaryRanges) = true := rfl
  by_cases hcontrol : c.toNat > 0x1F
  · by_cases hgap : isGap c = true
    · exact inRanges_boundary_of_isGap hgap
    · have hmem : c ∈ namePunctuation := by
        simpa [isNamePart, hcontrol, hgap] using h
      exact List.all_eq_true.1 hpunctuation c hmem
  · exact inRanges_iff.2 ⟨(0x0, 0x23), by decide, by omega, by omega⟩

/-- Letters and numbers of any script are characters of names. -/
theorem isNamePart_of_isWord
    (h : (Point.scalar c).isWord = true ∨ (Point.scalar c).is '$' = true) :
    isNamePart c = true := by
  rw [Point.isWord, Bool.or_eq_true] at h
  rcases h with (h | h) | h
  · obtain rfl := Point.scalar.inj (Point.eq_of_is h)
    decide
  · have hapart : inRanges c.toNat boundaryRanges = false :=
      inRanges_of_apart boundary_apart h
    cases hpart : isNamePart c with
    | true => rfl
    | false => rw [inRanges_boundary hpart] at hapart; cases hapart
  · obtain rfl := Point.scalar.inj (Point.eq_of_is h)
    decide

theorem not_isDigit_of_isAlpha (h : c.isAlpha = true) : c.isDigit = false := by
  have hfar : inRanges c.toNat [(0x30, 0x39)] = false :=
    inRanges_of_apart (by decide) (Point.inRanges_letter (p := .scalar c) h)
  rw [Bool.eq_false_iff]
  intro hdigit
  simp only [Char.isDigit, Bool.and_eq_true, decide_eq_true_eq, ge_iff_le,
    UInt32.le_iff_toNat_le] at hdigit
  exact Bool.eq_false_iff.1 hfar (inRanges_iff.2 ⟨(0x30, 0x39), by decide, hdigit⟩)

-- ================================================================ names

/-- What follows does not go on with a name. -/
def EndsName (rest : List Char) : Prop :=
  ∀ c ∈ rest.head?, isNamePart c = false ∧ c ≠ '\\'

theorem nameEscapeLength_of_ne (h : c ≠ '\\') : nameEscapeLength (c :: cs) = 0 := by
  unfold nameEscapeLength
  split
  · next heq => exact absurd (List.cons.inj heq).1 h
  · next heq => exact absurd (List.cons.inj heq).1 h
  · rfl

theorem namePartsLength_of_endsName (h : EndsName rest) : namePartsLength fuel rest = 0 := by
  cases fuel with
  | zero => simp [namePartsLength]
  | succ fuel =>
    cases rest with
    | nil => rfl
    | cons c cs =>
      obtain ⟨hpart, hne⟩ := h c rfl
      simp [namePartsLength, hpart, nameEscapeLength_of_ne hne]

/-- The rest of a name is as long as its characters go. The fuel must
reach that far. -/
theorem namePartsLength_append (hcs : ∀ c ∈ cs, isNamePart c = true) (hrest : EndsName rest)
    (hfuel : cs.length ≤ fuel) : namePartsLength fuel (cs ++ rest) = cs.length := by
  induction cs generalizing fuel with
  | nil => exact namePartsLength_of_endsName hrest
  | cons c cs ih =>
    cases fuel with
    | zero => cases hfuel
    | succ fuel =>
      have htail := ih (fun d hd => hcs d (List.mem_cons_of_mem _ hd))
        (Nat.le_of_succ_le_succ hfuel)
      simp [namePartsLength, hcs c List.mem_cons_self, htail]

/-- A word is read up to what follows it. -/
theorem read_append_word (hc : isNameStart c = true) (hcs : ∀ d ∈ cs, isNamePart d = true)
    (hrest : EndsName rest) :
    Lexeme.read (c :: cs ++ rest) = Lexeme.at .word (c :: cs).length (c :: cs ++ rest) := by
  have hlength : nameLength (c :: (cs ++ rest)) = cs.length + 1 := by
    rw [nameLength, if_pos hc, namePartsLength_append hcs hrest (by simp)]
  rw [List.cons_append, Lexeme.read]
  simp [hlength]

end Codemod.Parse

namespace Codemod.Text

open Parse

variable {t : Text} {p : Point}

/-- The text is read as one word, whatever follows that does not go on
with a name. -/
def ReadsAsWord (t : Text) : Prop :=
  ∃ cs, t = ofChars cs ∧ ∀ rest, EndsName rest →
    Lexeme.read (cs ++ rest) = Lexeme.at .word cs.length (cs ++ rest)

/-- The text starts like a name and goes on like one. -/
def IsWord (t : Text) : Prop :=
  ∃ c cs, t = ofChars (c :: cs) ∧ isNameStart c = true ∧ ∀ d ∈ cs, isNamePart d = true

theorem IsWord.readsAsWord (h : t.IsWord) : t.ReadsAsWord := by
  obtain ⟨c, cs, rfl, hc, hcs⟩ := h
  exact ⟨c :: cs, rfl, fun _ hrest => read_append_word hc hcs hrest⟩

/-- A line feed ends the word in front of it, so it is not read with it. -/
theorem IsWord.not_readsAsWord_feed (h : t.IsWord) :
    ¬ ReadsAsWord (t ++ [.scalar '\n']) := by
  obtain ⟨c, cs, rfl, hc, hcs⟩ := h
  rintro ⟨ds, hds, hread⟩
  have hends : EndsName ['\n'] := by
    intro d hd
    obtain rfl := Option.some.inj hd
    decide
  have hshort := read_append_word hc hcs hends
  obtain rfl : c :: cs ++ ['\n'] = ds := by
    apply List.map_injective_iff.2 (fun _ _ => Point.scalar.inj)
    simpa [ofChars] using hds
  have hlong := hread [] (by simp [EndsName])
  rw [List.append_nil, hshort] at hlong
  have hlength : (c :: cs).length = (c :: cs ++ ['\n']).length := congrArg Lexeme.length hlong
  simp at hlength

theorem exists_ofChars_of_isWord (h : ∀ p ∈ t, p.isWord = true ∨ p.is '$' = true) :
    ∃ cs, t = ofChars cs ∧ ∀ c ∈ cs, isNamePart c = true := by
  induction t with
  | nil => exact ⟨[], rfl, by simp⟩
  | cons p t ih =>
    obtain ⟨cs, rfl, hcs⟩ := ih fun q hq => h q (List.mem_cons_of_mem _ hq)
    have hp := h p List.mem_cons_self
    cases p with
    | scalar c =>
      exact ⟨c :: cs, rfl, List.forall_mem_cons.2 ⟨isNamePart_of_isWord hp, hcs⟩⟩
    | surrogate n =>
      rw [Point.not_isWord_surrogate] at hp
      exact absurd hp (by simp [Point.is])

/-- A letter of ASCII, the underscore or the dollar sign, and words. -/
theorem isWord_cons (hp : (p.test Char.isAlpha || p.is '_' || p.is '$') = true)
    (ht : ∀ q ∈ t, q.isWord = true ∨ q.is '$' = true) : IsWord (p :: t) := by
  obtain ⟨cs, rfl, hcs⟩ := exists_ofChars_of_isWord ht
  rw [Bool.or_eq_true, Bool.or_eq_true] at hp
  rcases hp with (hp | hp) | hp
  · obtain ⟨c, rfl, hc⟩ := Point.exists_of_test hp
    refine ⟨c, cs, rfl, ?_, hcs⟩
    have hpart := isNamePart_of_isWord (Or.inl (Point.isWord_of_isAlpha hp))
    rw [isNameStart, hpart, not_isDigit_of_isAlpha hc]
    rfl
  · obtain rfl := Point.eq_of_is hp
    exact ⟨'_', cs, rfl, by decide, hcs⟩
  · obtain rfl := Point.eq_of_is hp
    exact ⟨'$', cs, rfl, by decide, hcs⟩

end Codemod.Text
