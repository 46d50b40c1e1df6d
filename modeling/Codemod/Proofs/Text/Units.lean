/-
Methods of strings.

A string value is a row of units of sixteen bits, and a position in it
counts units. The methods differ in what they make of a position outside
the string and of positions in the wrong order; on a start and a length
that are not negative `substr` and `slice` agree (`slice_eq_substr`), and
what a search finds at the front is a prefix, which is what the start of
the string is compared for (`indexOf_eq_zero_iff`,
`substring_eq_iff`).
-/
import Mathlib.Data.List.Infix

namespace Codemod

/-- A string value: its units of sixteen bits. -/
abbrev Units := List Nat

namespace Units

-- ================================================================ ranges

/-- The units from one position up to another. -/
def between (s : Units) (i j : Nat) : Units := (s.take j).drop i

/-- A position in a string of a given length, counted from the end when
negative. -/
def relative (length : Nat) (i : Int) : Nat :=
  if i < 0 then (length + i).toNat else min i.toNat length

/-- The nearest position in a string of a given length. -/
def clamp (length : Nat) (i : Int) : Nat := min i.toNat length

/-- `s.slice(start, finish)`. -/
def slice (s : Units) (start : Int) (finish : Option Int) : Units :=
  s.between (relative s.length start) ((finish.map (relative s.length)).getD s.length)

/-- `s.substr(start, count)`. -/
def substr (s : Units) (start : Int) (count : Option Int) : Units :=
  let i := relative s.length start
  s.between i (min (i + (count.map (clamp s.length)).getD s.length) s.length)

/-- `s.substring(start, finish)`. -/
def substring (s : Units) (start : Int) (finish : Option Int) : Units :=
  let i := clamp s.length start
  let j := (finish.map (clamp s.length)).getD s.length
  s.between (min i j) (max i j)

section Ranges

variable {s : Units} {a n : Int}

theorem slice_eq_substr (ha : 0 ≤ a) (hn : 0 ≤ n) :
    s.slice a (some (a + n)) = s.substr a (some n) := by
  obtain ⟨i, rfl⟩ := Int.eq_ofNat_of_zero_le ha
  obtain ⟨k, rfl⟩ := Int.eq_ofNat_of_zero_le hn
  have hstart : relative s.length (i : Int) = min i s.length := by
    rw [relative, if_neg (by omega), Int.toNat_natCast]
  have hend : relative s.length ((i : Int) + k) = min (i + k) s.length := by
    rw [relative, if_neg (by omega)]
    omega
  have hcount : clamp s.length (k : Int) = min k s.length := by
    rw [clamp, Int.toNat_natCast]
  simp only [slice, substr, Option.map_some, Option.getD_some, hstart, hend, hcount]
  congr 1
  omega

/-- An end is a position for the one and a number of units for the other. -/
example : slice [1, 2, 3] 2 (some 1) = [] ∧ substr [1, 2, 3] 2 (some 1) = [3] := by decide

/-- Without an end both go on to the end of the string. -/
theorem slice_none_eq_substr : s.slice a none = s.substr a none := by
  simp only [slice, substr, Option.map_none, Option.getD_none]
  congr 1
  omega

theorem substring_zero (n : Nat) : s.substring 0 (some n) = s.take n := by
  simp only [substring, clamp, between, Option.map_some, Option.getD_some,
    Int.toNat_zero, Int.toNat_natCast, Nat.zero_min, List.drop_zero, Nat.zero_max]
  rw [List.take_eq_take_iff]
  omega

end Ranges

-- ============================================================== searches

/-- The units from a position on are those of `x`. -/
def matchesAt (s x : Units) (i : Nat) : Bool := s.between i (i + x.length) == x

/-- The first position at which `x` is found. -/
def firstIndex? (s x : Units) : Option Nat :=
  (List.range (s.length + 1 - x.length)).find? (s.matchesAt x)

/-- `s.indexOf(x)`. -/
def indexOf (s x : Units) : Int :=
  match s.firstIndex? x with
  | some i => i
  | none => -1

/-- `s.includes(x)`. -/
def includes (s x : Units) : Bool := (s.firstIndex? x).isSome

/-- `s.startsWith(x)`. -/
def startsWith (s x : Units) : Bool :=
  if x.isEmpty then true
  else if s.length < x.length then false
  else s.matchesAt x 0

section Searches

variable {s x : Units}

theorem neg_one_le_indexOf : -1 ≤ s.indexOf x := by
  unfold indexOf
  split <;> omega

/-- What is not found has the index -1, and nothing else has. -/
theorem indexOf_eq_neg_one_iff : s.indexOf x = -1 ↔ s.includes x = false := by
  unfold indexOf includes
  cases s.firstIndex? x with
  | none => simp
  | some i =>
      simp only [Option.isSome_some, Bool.true_eq_false, iff_false]
      omega

theorem matchesAt_zero_iff : s.matchesAt x 0 = true ↔ x <+: s := by
  rw [matchesAt, beq_iff_eq, between, List.drop_zero, Nat.zero_add, List.prefix_iff_eq_take,
    eq_comm]

theorem startsWith_iff : s.startsWith x = true ↔ x <+: s := by
  unfold startsWith
  by_cases hx : x.isEmpty = true
  · rw [if_pos hx, List.isEmpty_iff.1 hx]
    simp
  · rw [if_neg hx]
    by_cases hlen : s.length < x.length
    · rw [if_pos hlen]
      refine iff_of_false (by decide) fun hprefix => ?_
      exact absurd hprefix.length_le (Nat.not_le.2 hlen)
    · rw [if_neg hlen, matchesAt_zero_iff]

/-- A search that succeeds at once has found a prefix. -/
theorem indexOf_eq_zero_iff : s.indexOf x = 0 ↔ s.startsWith x = true := by
  rw [startsWith_iff]
  have hfirst : s.indexOf x = 0 ↔ s.firstIndex? x = some 0 := by
    unfold indexOf
    cases s.firstIndex? x <;> simp
  rw [hfirst, ← matchesAt_zero_iff]
  constructor
  · exact fun h => List.find?_some h
  · intro h
    have hlen := (matchesAt_zero_iff.1 h).length_le
    obtain ⟨k, hk⟩ := Nat.exists_eq_succ_of_ne_zero
      (show s.length + 1 - x.length ≠ 0 by omega)
    rw [firstIndex?, hk, List.range_succ_eq_map]
    exact List.find?_cons_of_pos h

theorem substring_eq_iff : s.substring 0 (some x.length) = x ↔ s.startsWith x = true := by
  rw [substring_zero, startsWith_iff, List.prefix_iff_eq_take, eq_comm]

end Searches

end Units

end Codemod
