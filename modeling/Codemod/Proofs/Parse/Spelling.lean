/-
How tokens are spelled.

A token is read up to where it ends, which depends on the characters behind
it: brackets end anywhere, an operator before a blank, a sign before a
character that makes no longer token with it, a word before a character that
no name contains, a row of digits before anything that does not go on with a
number. What follows a token in built text is told by one character
(`Apart`).
-/
import Codemod.Proofs.Parse.Ahead

namespace Codemod

/-- The character of a point, unless it is a surrogate. -/
def Point.char? : Point → Option Char
  | .scalar c => some c
  | .surrogate _ => none

namespace Text

/-- The characters of a text. -/
def chars (t : Text) : List Char := t.filterMap Point.char?

variable (t u : Text) (cs : List Char)

@[simp] theorem chars_nil : chars [] = [] := rfl

@[simp] theorem chars_append : chars (t ++ u) = t.chars ++ u.chars :=
  List.filterMap_append

@[simp] theorem chars_cons (c : Char) : chars (.scalar c :: t) = c :: t.chars := rfl

@[simp] theorem chars_ofChars : chars (ofChars cs) = cs := by
  rw [chars, ofChars, List.filterMap_map]
  exact List.filterMap_some

@[simp] theorem chars_ofString (s : String) : chars (ofString s) = s.toList := chars_ofChars _

end Text

namespace Parse

variable {b cs rest : List Char} {c : Char} {t : String}

-- ========================================================== punctuation

/-- No name, number or literal starts with the character. -/
def isMarkStart (c : Char) : Bool :=
  !isGap c && !isNameStart c && !c.isDigit
    && !(['\\', '.', '\'', '"', '\x60', '#'].contains c)

theorem nameLength_of_not_isNameStart (hc : isNameStart c = false) (hslash : c ≠ '\\') :
    nameLength (c :: cs) = 0 := by
  rw [nameLength, if_neg (by simp [hc]), nameEscapeLength_of_ne hslash]
  rfl

theorem digitsLength_of_not {p : Char → Bool} (hc : p c = false) :
    digitsLength p (c :: cs) = 0 := by
  cases cs <;> simp [digitsLength, hc]

theorem numberLength_of_not_isDigit (hc : c.isDigit = false) (hdot : c ≠ '.') :
    numberLength (c :: cs) = 0 := by
  have hdecimal : decimalLength (c :: cs) = 0 := by
    unfold decimalLength
    simp only [digitsLength_of_not hc, List.drop_zero]
    split
    · rfl
    · next heq => exact absurd (List.cons.inj heq).1 hdot
    · rfl
  unfold numberLength
  split
  · next heq =>
      rw [(List.cons.inj heq).1] at hc
      cases hc
  · exact hdecimal

theorem comes_mark (hb : Blank b) (hc : isMarkStart c = true)
    (hp : punctuator? (c :: cs) = some t) (hcs : c :: cs = t.toList ++ rest)
    (hcomment : commentLength (c :: cs) = 0) :
    Comes (b ++ (c :: cs)) b .mark t rest := by
  simp only [isMarkStart, Bool.and_eq_true, Bool.not_eq_true', List.contains_eq_mem,
    decide_eq_false_iff_not, List.mem_cons, List.not_mem_nil, or_false, not_or] at hc
  obtain ⟨⟨⟨hgap, hname⟩, hdigit⟩, hslash, hdot, hsingle, hdouble, hback, hhash⟩ := hc
  have hread : Lexeme.read (c :: cs) = ⟨.mark, t, t.toList.length⟩ := by
    simp [Lexeme.read, nameLength_of_not_isNameStart hname hslash,
      numberLength_of_not_isDigit hdigit hdot, hsingle, hdouble, hback, hhash, hp,
      String.length_toList]
  refine ⟨by rw [hcs], hb, ⟨?_, ?_⟩, ?_⟩
  · rw [← hcs]
    rintro d hd
    obtain rfl := Option.some.inj hd
    exact hgap
  · rw [← hcs, hcomment]
  · rw [← hcs, hread]

/-- The punctuation that no longer token starts with. -/
def brackets : List String := ["(", ")", "[", "]", "\x7b", "\x7d", ",", ":", "~"]

theorem comes_bracket (hb : Blank b) (ht : t ∈ brackets) :
    Comes (b ++ (t.toList ++ rest)) b .mark t rest := by
  simp only [brackets, List.mem_cons, List.not_mem_nil, or_false] at ht
  rcases ht with rfl | rfl | rfl | rfl | rfl | rfl | rfl | rfl | rfl <;>
    exact comes_mark hb (by decide) rfl rfl rfl

/-- The punctuation that is written between blanks. -/
def spacedMarks : List String := [
  "??", "||", "&&", "|", "^", "&", "==", "!=", "===", "!==", "<", ">", "<=", ">=",
  "<<", ">>", ">>>", "+", "-", "*", "/", "%", "**", "=", "=>"]

theorem comes_spacedMark (hb : Blank b) (ht : t ∈ spacedMarks) :
    Comes (b ++ (t.toList ++ ' ' :: rest)) b .mark t (' ' :: rest) := by
  simp only [spacedMarks, List.mem_cons, List.not_mem_nil, or_false] at ht
  rcases ht with rfl | rfl | rfl | rfl | rfl | rfl | rfl | rfl | rfl | rfl | rfl | rfl
    | rfl | rfl | rfl | rfl | rfl | rfl | rfl | rfl | rfl | rfl | rfl | rfl | rfl <;>
    exact comes_mark hb (by decide) rfl rfl rfl

/-- A sign ends before a character that makes no longer token with it. -/
theorem comes_sign (hb : Blank b) (ht : t ∈ ["!", "+", "-"]) (hc : c ≠ '=')
    (hsign : t = "!" ∨ t.toList ≠ [c]) :
    Comes (b ++ (t.toList ++ c :: rest)) b .mark t (c :: rest) := by
  have heq : ('=' == c) = false := beq_false_of_ne hc.symm
  simp only [List.mem_cons, List.not_mem_nil, or_false] at ht
  rcases ht with rfl | rfl | rfl
  · refine comes_mark (c := '!') hb (by decide) ?_ rfl rfl
    simp [punctuator?, punctuators, List.find?, List.isPrefixOf, heq]
  · have hplus : ('+' == c) = false := beq_false_of_ne (by simpa [eq_comm] using hsign)
    refine comes_mark (c := '+') hb (by decide) ?_ rfl rfl
    simp [punctuator?, punctuators, List.find?, List.isPrefixOf, heq, hplus]
  · have hminus : ('-' == c) = false := beq_false_of_ne (by simpa [eq_comm] using hsign)
    refine comes_mark (c := '-') hb (by decide) ?_ rfl rfl
    simp [punctuator?, punctuators, List.find?, List.isPrefixOf, heq, hminus]

/-- Neither white space nor a comment starts with the character. -/
theorem solid_cons (hgap : isGap c = false) (hslash : c ≠ '/') : Solid (c :: cs) := by
  constructor
  · rintro d hd
    obtain rfl := Option.some.inj hd
    exact hgap
  · unfold commentLength
    split
    · next heq => exact absurd (List.cons.inj heq).1 hslash
    · next heq => exact absurd (List.cons.inj heq).1 hslash
    · rfl

theorem comes_dots (hb : Blank b) :
    Comes (b ++ ('.' :: '.' :: '.' :: rest)) b .mark "..." rest :=
  ⟨rfl, hb, solid_cons (by decide) (by decide), rfl⟩

-- ================================================================ words

theorem isNameStart_of_read (h : (Lexeme.read (c :: cs)).shape = .word) :
    isNameStart c = true ∨ c = '\\' := by
  by_contra hno
  rw [not_or, Bool.not_eq_true] at hno
  have hzero : nameLength (c :: cs) = 0 := nameLength_of_not_isNameStart hno.1 hno.2
  revert h
  unfold Lexeme.read
  simp only [hzero, Nat.lt_irrefl, if_false, gt_iff_lt]
  repeat' split
  all_goals exact nofun

/-- The characters of a name do not go on in what follows. -/
theorem ends_of_readsAsWord {name : Text} (h : name.ReadsAsWord) :
    ∃ c cs, name = Text.ofChars (c :: cs) ∧ (isNameStart c = true ∨ c = '\\')
      ∧ ∀ rest, EndsName rest →
        Lexeme.read (c :: cs ++ rest) = Lexeme.at .word (c :: cs).length (c :: cs ++ rest) := by
  obtain ⟨cs, rfl, hread⟩ := h
  cases cs with
  | nil => cases congrArg Lexeme.shape (hread [] nofun)
  | cons c cs =>
      have hshape : (Lexeme.read (c :: (cs ++ []))).shape = .word :=
        congrArg Lexeme.shape (hread [] nofun)
      exact ⟨c, cs, rfl, isNameStart_of_read hshape, hread⟩

theorem not_isGap_of_starts (h : isNameStart c = true ∨ c = '\\') :
    isGap c = false ∧ c ≠ '/' := by
  rcases h with h | rfl
  · simp only [isNameStart, isNamePart, Bool.and_eq_true, Bool.not_eq_true'] at h
    refine ⟨h.1.1.2, ?_⟩
    rintro rfl
    exact absurd h.1.2 (by decide)
  · decide

theorem comes_word (hb : Blank b) {name : Text} (h : name.ReadsAsWord)
    (hrest : EndsName rest) : Comes (b ++ (name.chars ++ rest)) b .word
      (String.ofList name.chars) rest := by
  obtain ⟨c, cs, rfl, hstart, hread⟩ := ends_of_readsAsWord h
  obtain ⟨hgap, hslash⟩ := not_isGap_of_starts hstart
  rw [Text.chars_ofChars]
  refine ⟨by rw [String.toList_ofList], hb, ?_, ?_⟩
  · rw [String.toList_ofList]
    exact solid_cons hgap hslash
  · rw [String.toList_ofList, hread _ hrest, Lexeme.at, List.take_left]

/-- A word that is written without escapes. -/
def isPlainWord (w : String) : Bool :=
  match w.toList with
  | [] => false
  | c :: cs => isNameStart c && cs.all isNamePart

theorem isWord_ofString {w : String} (h : isPlainWord w = true) : (Text.ofString w).IsWord := by
  unfold isPlainWord at h
  split at h
  · cases h
  · next c cs hw =>
      rw [Bool.and_eq_true, List.all_eq_true] at h
      exact ⟨c, cs, by rw [Text.ofString, hw], h.1, h.2⟩

theorem endsName_cons (h : (!isNamePart c && c != '\\') = true) : EndsName (c :: cs) := by
  intro d hd
  obtain rfl := Option.some.inj hd
  simpa using h

theorem comes_plainWord {w : String} (hb : Blank b) (h : isPlainWord w = true)
    (hrest : EndsName rest) : Comes (b ++ (w.toList ++ rest)) b .word w rest := by
  have hcomes := comes_word hb (isWord_ofString h).readsAsWord hrest
  rwa [Text.chars_ofString, String.ofList_toList] at hcomes

/-- A dot in front of a name. -/
theorem comes_dot (hb : Blank b) {name : Text} (h : name.ReadsAsWord) :
    Comes (b ++ ('.' :: (name.chars ++ rest))) b .mark "." (name.chars ++ rest) := by
  obtain ⟨c, cs, rfl, hstart, -⟩ := ends_of_readsAsWord h
  have hc : c ≠ '.' ∧ c.isDigit = false := by
    rcases hstart with hstart | rfl
    · simp only [isNameStart, Bool.and_eq_true, Bool.not_eq_true'] at hstart
      refine ⟨?_, hstart.2⟩
      rintro rfl
      exact absurd hstart.1 (by decide)
    · decide
  have hdot : ('.' == c) = false := beq_false_of_ne hc.1.symm
  refine ⟨rfl, hb, solid_cons (by decide) (by decide), ?_⟩
  rw [Text.chars_ofChars]
  have hp : punctuator? ('.' :: c :: (cs ++ rest)) = some "." := by
    simp [punctuator?, punctuators, List.find?, List.isPrefixOf, hdot]
  have hnum : numberLength ('.' :: c :: (cs ++ rest)) = 0 := by
    have hdigits : digitsLength Char.isDigit (c :: (cs ++ rest)) = 0 :=
      digitsLength_of_not hc.2
    simp [numberLength, decimalLength, digitsLength, hdigits]
  have hname : nameLength ('.' :: c :: (cs ++ rest)) = 0 :=
    nameLength_of_not_isNameStart (by decide) (by decide)
  have hlength : ".".length = 1 := rfl
  simp [Lexeme.read, hnum, hname, hp, hlength]

-- ============================================================== numbers

theorem forall_mem_of_all {α : Type} {l : List α} {p : α → Prop} [DecidablePred p]
    (h : l.all (fun a => decide (p a)) = true) : ∀ a ∈ l, p a := by
  simpa using h

/-- What can follow an operand: the end, a closing bracket or a comma, an
opening parenthesis, a dot or a blank. -/
def Apart (rest : List Char) : Prop := ∀ c ∈ rest.head?, c ∈ [')', ']', ',', '(', '.', ' ']

theorem Apart.endsName (h : Apart rest) : EndsName rest := by
  intro c hc
  have hall : ∀ d ∈ [')', ']', ',', '(', '.', ' '], isNamePart d = false ∧ d ≠ '\\' :=
    forall_mem_of_all (by decide)
  exact hall c (h c hc)

/-- The characters besides digits that may stand in a number. -/
def numberMarks : List Char := ['_', 'x', 'X', 'o', 'O', 'b', 'B', 'n', 'e', 'E', '.']

/-- What follows does not go on with a row of digits. -/
def EndsNumber (rest : List Char) : Prop :=
  ∀ c ∈ rest.head?, c.isDigit = false ∧ c ∉ numberMarks

theorem Apart.endsNumber (h : Apart rest) (hdot : rest.head? ≠ some '.') :
    EndsNumber rest := by
  intro c hc
  have hall : ∀ d ∈ [')', ']', ',', '(', '.', ' '], d ≠ '.' →
      d.isDigit = false ∧ d ∉ numberMarks := forall_mem_of_all (by decide)
  refine hall c (h c hc) ?_
  rintro rfl
  exact hdot hc

theorem digitsLength_append (hcs : ∀ d ∈ cs, d.isDigit = true)
    (hrest : EndsNumber rest) :
    digitsLength Char.isDigit (cs ++ rest) = cs.length := by
  induction cs with
  | nil =>
      cases rest with
      | nil => rfl
      | cons d rest => exact digitsLength_of_not (hrest d rfl).1
  | cons c cs ih =>
      rw [List.forall_mem_cons] at hcs
      have htail := ih hcs.2
      cases hne : cs ++ rest with
      | nil =>
          rw [hne] at htail
          simp [hne, digitsLength, hcs.1, ← htail]
      | cons d ds =>
          have hd : (d == '_') = false := by
            cases cs with
            | nil =>
                obtain rfl : rest = d :: ds := hne
                refine beq_false_of_ne fun hd => (hrest d rfl).2 ?_
                rw [hd]
                decide
            | cons e es =>
                obtain rfl : e = d := (List.cons.inj hne).1
                refine beq_false_of_ne ?_
                rintro rfl
                exact absurd (hcs.2 '_' List.mem_cons_self) (by decide)
          have hcons : digitsLength Char.isDigit (c :: d :: ds)
              = digitsLength Char.isDigit (d :: ds) + 1 := by
            rw [digitsLength.eq_def]
            simp [hcs.1, hd]
          rw [List.cons_append, hne, hcons, ← hne, htail]
          rfl

theorem decimalLength_append (hne : cs ≠ []) (hcs : ∀ d ∈ cs, d.isDigit = true)
    (hrest : EndsNumber rest) : decimalLength (cs ++ rest) = cs.length := by
  have hpos : cs.length ≠ 0 := by simpa using hne
  unfold decimalLength
  simp only [digitsLength_append hcs hrest, List.drop_left]
  cases rest with
  | nil => simp [hpos, exponentLength]
  | cons d rest =>
      have hd : ∀ e ∈ numberMarks, d ≠ e := fun e he heq => (hrest d rfl).2 (heq ▸ he)
      split
      · next heq => exact absurd (List.cons.inj heq).1 (hd 'n' (by decide))
      · next heq => exact absurd (List.cons.inj heq).1 (hd '.' (by decide))
      · simp [hpos, exponentLength, hd 'e' (by decide), hd 'E' (by decide)]

theorem numberLength_append (hne : cs ≠ []) (hcs : ∀ d ∈ cs, d.isDigit = true)
    (hrest : EndsNumber rest) : numberLength (cs ++ rest) = cs.length := by
  rw [← decimalLength_append hne hcs hrest]
  unfold numberLength
  split
  · next m ds heq =>
      -- a zero, and behind it a digit or what follows the number
      have hm : ∀ d ∈ ['x', 'X', 'o', 'O', 'b', 'B'], (m == d) = false := by
        have hmarks : ∀ d ∈ ['x', 'X', 'o', 'O', 'b', 'B'],
            d.isDigit = false ∧ d ∈ numberMarks := forall_mem_of_all (by decide)
        intro d hd
        obtain ⟨hdigit, hmark⟩ := hmarks d hd
        refine beq_false_of_ne ?_
        rintro rfl
        rcases cs with _ | ⟨c, _ | ⟨e, es⟩⟩
        · exact hne rfl
        · obtain rfl := (List.cons.inj heq).2
          exact (hrest m rfl).2 hmark
        · obtain rfl : e = m := (List.cons.inj (List.cons.inj heq).2).1
          rw [hcs e (by simp)] at hdigit
          cases hdigit
      simp [hm, heq]
  · rfl

theorem not_isGap_of_isDigit (h : c.isDigit = true) : isGap c = false := by
  have hc : 48 ≤ c.toNat ∧ c.toNat ≤ 57 := Char.isDigit_iff_toNat.1 h
  simp only [isGap, isSpaceSeparator, Bool.or_eq_false_iff, Bool.and_eq_false_iff,
    decide_eq_false_iff_not, beq_eq_false_iff_ne]
  omega

/-- A row of digits is a number, before anything that can follow an operand
but the dot. -/
theorem comes_number (hb : Blank b) (hne : cs ≠ []) (hcs : ∀ d ∈ cs, d.isDigit = true)
    (hrest : Apart rest) (hdot : rest.head? ≠ some '.') :
    Comes (b ++ (cs ++ rest)) b .number (String.ofList cs) rest := by
  have hlength := numberLength_append hne hcs (hrest.endsNumber hdot)
  cases cs with
  | nil => exact absurd rfl hne
  | cons c cs =>
      have hdigit := hcs c List.mem_cons_self
      have hstart : isNameStart c = false := by simp [isNameStart, hdigit]
      have hslash : c ≠ '/' ∧ c ≠ '\\' := by
        constructor <;>
          (rintro rfl; exact absurd hdigit (by decide))
      have hname : nameLength (c :: cs ++ rest) = 0 :=
        nameLength_of_not_isNameStart hstart hslash.2
      refine ⟨by rw [String.toList_ofList], hb, ?_, ?_⟩
      · rw [String.toList_ofList]
        exact solid_cons (not_isGap_of_isDigit hdigit) hslash.1
      · rw [String.toList_ofList, List.cons_append, Lexeme.read]
        rw [List.cons_append] at hname hlength
        simp [hname, hlength, Lexeme.at]

end Parse

end Codemod
