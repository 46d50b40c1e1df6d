/-
Numeric literals of the script language.

`Numeral.value?` is the value that the language gives to the spelling of a
number: in a base behind its mark, as a legacy octal, as an integer of
unbounded size, or as a decimal with a point and an exponent. Underscores
may stand between two digits.

Digits alone are a decimal number, unless a zero is followed by octal
digits only (`value?_of_digits`). Read in base ten anyway, such a number
keeps its value as long as it is less than eight
(`ofDigitChars_eq_iff_of_isLegacyOctal`). What is written for a natural
number is never one of these (`value?_toDigits`).
-/
import Mathlib.Data.Rat.Defs
import Mathlib.Algebra.Field.Rat
import Mathlib.Data.List.TakeDrop
import Mathlib.Data.List.TakeWhile
import Mathlib.Data.List.Induction
import Mathlib.Tactic.IntervalCases
import Codemod.Analysis.Comparison

namespace Codemod

namespace Numeral

-- ============================================================== digits

/-- What a digit is worth, if it is one in the base. -/
def digit? (base : Nat) (c : Char) : Option Nat :=
  let worth :=
    if c.isDigit then c.toNat - '0'.toNat
    else if 'a' ≤ c && c ≤ 'f' then c.toNat - 'a'.toNat + 10
    else if 'A' ≤ c && c ≤ 'F' then c.toNat - 'A'.toNat + 10
    else base
  if worth < base then some worth else none

/-- The number that digits denote; there has to be one. -/
def natural? (base : Nat) (cs : List Char) : Option Nat :=
  if cs.isEmpty then none
  else cs.foldlM (fun n c => (digit? base c).map (base * n + ·)) 0

/-- The number that groups of digits with underscores between them
denote. -/
def separated? (base : Nat) (cs : List Char) : Option Nat :=
  let groups := cs.splitOn '_'
  if groups.any List.isEmpty then none else natural? base groups.flatten

-- ============================================================ literals

/-- A digit of an octal number. -/
def isOctal (c : Char) : Bool := '0' ≤ c && c ≤ '7'

/-- A zero and then octal digits, at least one. -/
def isLegacyOctal : List Char → Bool
  | '0' :: d :: ds => (d :: ds).all isOctal
  | _ => false

/-- The base that a mark announces, and what follows the mark. -/
def base? : List Char → Option (Nat × List Char)
  | '0' :: m :: ds =>
    if m == 'x' || m == 'X' then some (16, ds)
    else if m == 'o' || m == 'O' then some (8, ds)
    else if m == 'b' || m == 'B' then some (2, ds)
    else none
  | _ => none

/-- An integer of unbounded size, in decimal digits: no zero leads. -/
def bigInteger? (cs : List Char) : Option Nat :=
  if cs.head? == some '0' && cs.length > 1 then none else separated? 10 cs

/-- What stands in front of a decimal point. A leading zero takes no
underscore, and an octal number no point. -/
def whole? (cs : List Char) : Option Nat :=
  if cs.head? == some '0' && cs.length > 1 then
    if isLegacyOctal cs then none else natural? 10 cs
  else separated? 10 cs

/-- The fraction of a number, from its decimal point on. -/
def fraction? : List Char → Option ℚ
  | [] | [_] => some 0
  | _ :: ds =>
    (separated? 10 ds).map fun n => n / 10 ^ (ds.filter (· != '_')).length

/-- The exponent of a number, from its mark on. -/
def exponent? : List Char → Option Int
  | [] => some 0
  | _ :: '+' :: ds => (separated? 10 ds).map Int.ofNat
  | _ :: '-' :: ds => (separated? 10 ds).map fun n => -Int.ofNat n
  | _ :: ds => (separated? 10 ds).map Int.ofNat

/-- The value of a decimal number. Digits stand in front of the point or
behind it. -/
def decimal? (cs : List Char) : Option ℚ := do
  let (mantissa, power) := cs.span fun c => c != 'e' && c != 'E'
  let (whole, fraction) := mantissa.span (· != '.')
  if whole.isEmpty && fraction.length ≤ 1 then none
  let w ← if whole.isEmpty then some 0 else whole? whole
  let f ← fraction? fraction
  let e ← exponent? power
  return (w + f) * 10 ^ e

/-- The value of a numeric literal. -/
def value? (cs : List Char) : Option ℚ :=
  match base? cs with
  | some (base, ds) =>
    let digits := if ds.getLast? == some 'n' then ds.dropLast else ds
    (separated? base digits).map Nat.cast
  | none =>
    if isLegacyOctal cs then (natural? 8 cs).map Nat.cast
    else if cs.getLast? == some 'n' then (bigInteger? cs.dropLast).map Nat.cast
    else decimal? cs

example : value? "0xFf".toList = some 255 ∧ value? "0b10n".toList = some 2
    ∧ value? "1_000".toList = some 1000 ∧ value? "1__0".toList = none
    ∧ value? "08.5".toList = some (17 / 2) ∧ value? "07.5".toList = none
    ∧ value? "25e-1".toList = some (5 / 2) ∧ value? ".5".toList = some (1 / 2) := by
  decide +kernel

-- ======================================================== digits alone

/-- What a decimal digit is worth. -/
def worth (c : Char) : Nat := c.toNat - '0'.toNat

theorem worth_lt_ten {c : Char} (h : c.isDigit = true) : worth c < 10 := by
  simp only [Char.isDigit, ge_iff_le, Bool.and_eq_true, decide_eq_true_eq,
    UInt32.le_iff_toNat_le] at h
  have hc : c.toNat = c.val.toNat := rfl
  have hzero : '0'.toNat = 48 := rfl
  have hnine : '9'.val.toNat = 57 := rfl
  unfold worth
  omega

theorem isOctal_iff {c : Char} :
    isOctal c = true ↔ c.isDigit = true ∧ worth c < 8 := by
  have hc : c.toNat = c.val.toNat := rfl
  have hzero : '0'.toNat = 48 := rfl
  have hzero' : '0'.val.toNat = 48 := rfl
  have hseven : '7'.val.toNat = 55 := rfl
  have hnine : '9'.val.toNat = 57 := rfl
  simp only [isOctal, Char.isDigit, worth, ge_iff_le, Bool.and_eq_true, decide_eq_true_eq,
    UInt32.le_iff_toNat_le, Char.le_def]
  omega

theorem all_of_isLegacyOctal {cs : List Char} (h : isLegacyOctal cs = true) :
    ∀ c ∈ cs, isOctal c = true := by
  unfold isLegacyOctal at h
  split at h
  · exact List.forall_mem_cons.2 ⟨by decide, List.all_eq_true.1 h⟩
  · cases h

theorem digit?_of_isDigit {base : Nat} {c : Char} (h : c.isDigit = true)
    (hlt : worth c < base) : digit? base c = some (worth c) := by
  rw [worth] at hlt
  simp only [digit?, h, if_true, hlt, worth]

/-- Digits are read from the left. -/
theorem natural?_of_digits {base : Nat} {cs : List Char} (hne : cs ≠ [])
    (hd : ∀ c ∈ cs, c.isDigit = true ∧ worth c < base) :
    natural? base cs = some (Nat.ofDigitChars base cs 0) := by
  have hfold : ∀ (ds : List Char) (n : Nat),
      (∀ c ∈ ds, c.isDigit = true ∧ worth c < base) →
      ds.foldlM (fun n c => (digit? base c).map (base * n + ·)) n
        = some (Nat.ofDigitChars base ds n) := by
    intro ds
    induction ds with
    | nil => exact fun n _ => rfl
    | cons c ds ih =>
        intro n h
        obtain ⟨hc, hds⟩ := List.forall_mem_cons.1 h
        rw [List.foldlM_cons, digit?_of_isDigit hc.1 hc.2, Nat.ofDigitChars_cons]
        exact ih _ hds
  rw [natural?, if_neg (by simpa using hne)]
  exact hfold cs 0 hd

/-- A digit is none of the marks of a literal. -/
theorem ne_of_isDigit {c d : Char} (h : c.isDigit = true) (hd : d.isDigit = false) :
    c ≠ d := by
  rintro rfl
  rw [h] at hd
  cases hd

theorem separated?_of_digits {cs : List Char} (hne : cs ≠ [])
    (hd : ∀ c ∈ cs, c.isDigit = true) :
    separated? 10 cs = some (Nat.ofDigitChars 10 cs 0) := by
  have hgroups : cs.splitOn '_' = [cs] :=
    List.splitOnP_eq_singleton fun c hc => by
      simpa using ne_of_isDigit (hd c hc) (by decide)
  simp only [separated?, hgroups, List.any_cons, List.any_nil, Bool.or_false,
    List.isEmpty_iff, hne, List.flatten_cons, List.flatten_nil, List.append_nil]
  exact natural?_of_digits hne fun c hc => ⟨hd c hc, worth_lt_ten (hd c hc)⟩

theorem base?_of_digits {cs : List Char} (hd : ∀ c ∈ cs, c.isDigit = true) :
    base? cs = none := by
  unfold base?
  split
  · next m ds =>
      have hm : m.isDigit = true := hd m (by simp)
      have hplain : ['x', 'X', 'o', 'O', 'b', 'B'].all (fun d => !d.isDigit) = true := rfl
      have hmarks : ∀ d ∈ ['x', 'X', 'o', 'O', 'b', 'B'], (m == d) = false := by
        intro d hmem
        apply beq_eq_false_iff_ne.2
        exact ne_of_isDigit hm (by simpa using List.all_eq_true.1 hplain d hmem)
      simp [hmarks]
  · rfl

theorem whole?_of_digits {cs : List Char} (hne : cs ≠ [])
    (hd : ∀ c ∈ cs, c.isDigit = true) (hoct : isLegacyOctal cs = false) :
    whole? cs = some (Nat.ofDigitChars 10 cs 0) := by
  unfold whole?
  split
  · rw [hoct, if_neg (by decide)]
    exact natural?_of_digits hne fun c hc => ⟨hd c hc, worth_lt_ten (hd c hc)⟩
  · exact separated?_of_digits hne hd

/-- Digits alone have neither a fraction nor an exponent. -/
theorem decimal?_of_digits {cs : List Char} (hne : cs ≠ [])
    (hd : ∀ c ∈ cs, c.isDigit = true) (hoct : isLegacyOctal cs = false) :
    decimal? cs = some ((Nat.ofDigitChars 10 cs 0 : ℕ) : ℚ) := by
  have hspan : ∀ p : Char → Bool, (∀ c, c.isDigit = true → p c = true) →
      cs.span p = (cs, []) := by
    intro p hp
    have hall : ∀ c ∈ cs, p c = true := fun c hc => hp c (hd c hc)
    rw [List.span_eq_takeWhile_dropWhile, List.takeWhile_eq_self_iff.2 hall,
      List.dropWhile_eq_nil_iff.2 hall]
  have hmantissa := hspan (fun c => c != 'e' && c != 'E') fun c hc => by
    simpa using ⟨ne_of_isDigit hc (by decide), ne_of_isDigit hc (by decide)⟩
  have hwhole := hspan (· != '.') fun c hc => by
    simpa using ne_of_isDigit hc (by decide)
  have hempty : cs.isEmpty = false := by simpa using hne
  simp only [decimal?, hmantissa, hwhole, hempty, whole?_of_digits hne hd hoct, fraction?,
    exponent?, Bool.false_and, Bool.false_eq_true, if_false, Option.bind_eq_bind, Option.bind_some, zpow_zero, mul_one, add_zero]
  rfl

/-- Digits alone are a decimal number, unless they are a legacy octal. -/
theorem value?_of_digits {cs : List Char} (hne : cs ≠ [])
    (hd : ∀ c ∈ cs, c.isDigit = true) :
    value? cs
      = some ((Nat.ofDigitChars (if isLegacyOctal cs then 8 else 10) cs 0 : ℕ) : ℚ) := by
  rw [value?, base?_of_digits hd]
  cases hoct : isLegacyOctal cs with
  | true =>
      have hall : ∀ c ∈ cs, isOctal c = true := all_of_isLegacyOctal hoct
      simp only [if_true]
      rw [natural?_of_digits hne fun c hc => isOctal_iff.1 (hall c hc)]
      rfl
  | false =>
      have hlast : (cs.getLast? == some 'n') = false := by
        refine beq_eq_false_iff_ne.2 fun h => ?_
        exact ne_of_isDigit (hd _ (List.mem_of_getLast? h)) (by decide) rfl
      simp only [Bool.false_eq_true, if_false, hlast]
      exact decimal?_of_digits hne hd hoct

-- ============================================================== octals

/-- Octal digits read in base ten are worth no less than in base eight,
and the same as long as they are worth less than eight. -/
theorem ofDigitChars_ten_of_isOctal {cs : List Char} (h : cs.all isOctal = true) :
    Nat.ofDigitChars 8 cs 0 ≤ Nat.ofDigitChars 10 cs 0
      ∧ (Nat.ofDigitChars 10 cs 0 = Nat.ofDigitChars 8 cs 0
        ↔ Nat.ofDigitChars 8 cs 0 < 8) := by
  induction cs using List.reverseRecOn with
  | nil => decide
  | append_singleton cs d ih =>
      simp only [List.all_append, List.all_cons, List.all_nil, Bool.and_true,
        Bool.and_eq_true] at h
      obtain ⟨hle, hiff⟩ := ih h.1
      have hd : d.toNat - '0'.toNat < 8 := (isOctal_iff.1 h.2).2
      simp only [Nat.ofDigitChars_append, Nat.ofDigitChars_cons, Nat.ofDigitChars_nil]
      omega

-- ========================================================= reading digits

theorem decimal?_of_isDigit {c : Char} (h : c.isDigit = true) :
    (Point.scalar c).decimal? = some (worth c) := by
  have hc := Char.isDigit_iff_toNat.1 h
  have hcode : (Point.scalar c).code = c.toNat := rfl
  have hfind : decimalZeros.find? (fun z => z ≤ c.toNat && c.toNat < z + 10) = some 48 :=
    List.find?_cons_of_pos (by simpa using ⟨hc.1, Nat.lt_succ_iff.2 hc.2⟩)
  rw [Point.decimal?, hcode, hfind]
  rfl

theorem mapM_decimal?_of_digits {cs : List Char} (hd : ∀ c ∈ cs, c.isDigit = true) :
    (Text.ofChars cs).mapM Point.decimal? = some (cs.map worth) := by
  induction cs with
  | nil => rfl
  | cons c cs ih =>
      obtain ⟨hc, hcs⟩ := List.forall_mem_cons.1 hd
      show (Point.scalar c :: Text.ofChars cs).mapM Point.decimal? = _
      rw [List.mapM_cons, decimal?_of_isDigit hc, ih hcs]
      rfl

/-- The number that decimal digits spell. -/
def spelled? (t : Text) : Option Nat :=
  (t.mapM Point.decimal?).map fun ds => ds.foldl (fun n d => n * 10 + d) 0

theorem spelled?_of_digits {cs : List Char} (hd : ∀ c ∈ cs, c.isDigit = true) :
    spelled? (Text.ofChars cs) = some (Nat.ofDigitChars 10 cs 0) := by
  rw [spelled?, mapM_decimal?_of_digits hd, Option.map_some, List.foldl_map,
    Nat.ofDigitChars_eq_foldl]
  simp only [worth, Nat.mul_comm]

/-- Digits are read as they are spelled, as long as there are not too
many. -/
theorem spelled?_of_readDigits {t : Text} {m : Nat} (h : readDigits t = .ok m) :
    spelled? t = some m := by
  unfold readDigits at h
  split at h
  · cases h
  · next ds hds =>
      split at h
      · cases h
      · rw [spelled?, hds, ← Except.ok.inj h, Option.map_some]

theorem readDigits_eq_ok {cs : List Char} {m : Nat} (hd : ∀ c ∈ cs, c.isDigit = true)
    (h : readDigits (Text.ofChars cs) = .ok m) : m = Nat.ofDigitChars 10 cs 0 :=
  Option.some.inj ((spelled?_of_readDigits h).symm.trans (spelled?_of_digits hd))

-- ======================================================= written numbers

theorem head?_toDigits {n : Nat} (h : 0 < n) : (Nat.toDigits 10 n).head? ≠ some '0' := by
  induction n using Nat.strong_induction_on with
  | _ n ih =>
      by_cases hten : 10 ≤ n
      · rw [Nat.toDigits_of_base_le (by decide) hten, List.head?_append,
          Option.or_of_isSome (List.isSome_head?.2 Nat.toDigits_ne_nil)]
        exact ih (n / 10) (by omega) (by omega)
      · rw [Nat.toDigits_of_lt_base (by omega)]
        interval_cases n <;> decide

theorem isDigit_of_mem_toDigits (n : Nat) : ∀ c ∈ Nat.toDigits 10 n, c.isDigit = true :=
  fun _ hc => Nat.isDigit_of_mem_toDigits (by decide) (by decide) hc

theorem spelled?_toDigits (n : Nat) : spelled? (Text.ofChars (Nat.toDigits 10 n)) = some n := by
  rw [spelled?_of_digits (isDigit_of_mem_toDigits n),
    Nat.ofDigitChars_toDigits (by decide) (by decide)]

/-- The digits of a number denote it. -/
theorem value?_toDigits (n : Nat) : value? (Nat.toDigits 10 n) = some (n : ℚ) := by
  have hoct : isLegacyOctal (Nat.toDigits 10 n) = false := by
    cases n with
    | zero => decide
    | succ n =>
        have hhead := head?_toDigits (Nat.succ_pos n)
        unfold isLegacyOctal
        split
        · next heq => rw [heq] at hhead; exact absurd rfl hhead
        · rfl
  rw [value?_of_digits Nat.toDigits_ne_nil (isDigit_of_mem_toDigits n), hoct,
    if_neg Bool.false_ne_true, Nat.ofDigitChars_toDigits (by decide) (by decide)]

end Numeral

end Codemod
