/-
Reading what has been written.

A decoder that stands between two characters reads the bytes of a
character and stands between two characters again
(`decodeFrom_utf8EncodeChar`): the first byte announces how many follow,
and each of these lies in the announced range, because a character is
neither a surrogate nor written longer than it has to be.

Main statement: `read_encode`. A text that is written and read again has
a line feed at the end of every line and is the same otherwise; a text
without carriage returns is the same altogether.
-/
import Mathlib.Tactic.Common
import Codemod.Text.Utf8

namespace Codemod.Utf8

-- ============================================================ characters

section Characters

variable {position n : Nat} {bs : Bytes}

theorem toNat_ofNat (h : n < 256) : (UInt8.ofNat n).toNat = n := by
  rw [UInt8.toNat_ofNat']
  exact Nat.mod_eq_of_lt h

/-- A short character is its only byte. -/
theorem decodeFrom_short (h : n < 0x80) :
    decodeFrom position none (UInt8.ofNat n :: bs)
      = (decodeFrom (position + 1) none bs).map (Char.ofNat n :: ·) := by
  rw [decodeFrom, toNat_ofNat (by omega), if_pos h]

/-- The first byte of a longer character announces the others. -/
theorem decodeFrom_lead {p : Unfinished} (hn : 0x80 ≤ n) (hb : n < 256)
    (h : announced? n position = some p) :
    decodeFrom position none (UInt8.ofNat n :: bs)
      = decodeFrom (position + 1) (some p) bs := by
  rw [decodeFrom, toNat_ofNat hb, if_neg (Nat.not_lt.2 hn), h]

/-- The last byte of a character. -/
theorem decodeFrom_last {lead start low high bits : Nat} (hlow : low ≤ n)
    (hhigh : n ≤ high) (hb : n < 256) :
    decodeFrom position (some ⟨lead, start, 0, low, high, bits⟩) (UInt8.ofNat n :: bs)
      = (decodeFrom (position + 1) none bs).map
          (Char.ofNat (bits * 64 + (n - 0x80)) :: ·) := by
  rw [decodeFrom, toNat_ofNat hb, if_pos (by simp [hlow, hhigh])]

/-- A byte that is neither the first of a character nor the last. -/
theorem decodeFrom_inner {lead start more low high bits : Nat} (hlow : low ≤ n)
    (hhigh : n ≤ high) (hb : n < 256) :
    decodeFrom position (some ⟨lead, start, more + 1, low, high, bits⟩)
        (UInt8.ofNat n :: bs)
      = decodeFrom (position + 1)
          (some ⟨lead, start, more, 0x80, 0xBF, bits * 64 + (n - 0x80)⟩) bs := by
  rw [decodeFrom, toNat_ofNat hb, if_pos (by simp [hlow, hhigh])]

theorem announced?_two (h : 0xC2 ≤ n) (h' : n ≤ 0xDF) :
    announced? n position = some ⟨n, position, 0, 0x80, 0xBF, n - 0xC0⟩ := by
  rw [announced?, if_pos (by simp [h, h'])]

theorem announced?_three (h : 0xE0 ≤ n) (h' : n ≤ 0xEF) :
    announced? n position = some ⟨n, position, 1, if n == 0xE0 then 0xA0 else 0x80,
      if n == 0xED then 0x9F else 0xBF, n - 0xE0⟩ := by
  rw [announced?, if_neg (by simp; omega), if_pos (by simp [h, h'])]

theorem announced?_four (h : 0xF0 ≤ n) (h' : n ≤ 0xF4) :
    announced? n position = some ⟨n, position, 2, if n == 0xF0 then 0x90 else 0x80,
      if n == 0xF4 then 0x8F else 0xBF, n - 0xF0⟩ := by
  rw [announced?, if_neg (by simp; omega), if_neg (by simp; omega),
    if_pos (by simp [h, h'])]

/-- The bytes of a character are read as the character. -/
theorem decodeFrom_utf8EncodeChar (position : Nat) (c : Char) (bs : Bytes) :
    ∃ next, decodeFrom position none (String.utf8EncodeChar c ++ bs)
      = (decodeFrom next none bs).map (c :: ·) := by
  have hvalid : c.val.toNat < 0xD800 ∨ 0xDFFF < c.val.toNat ∧ c.val.toNat < 0x110000 :=
    c.valid
  have hchar : ∀ m, m = c.val.toNat → Char.ofNat m = c := by
    rintro m rfl
    exact Char.ofNat_toNat c
  unfold String.utf8EncodeChar
  generalize c.val.toNat = v at hvalid hchar
  simp only
  split
  · refine ⟨position + 1, ?_⟩
    rw [List.singleton_append, decodeFrom_short (by omega), hchar v rfl]
  · split
    · refine ⟨position + 2, ?_⟩
      rw [List.cons_append, List.singleton_append,
        decodeFrom_lead (by omega) (by omega) (announced?_two (by omega) (by omega)),
        decodeFrom_last (by omega) (by omega) (by omega), hchar _ (by omega)]
    · split
      · refine ⟨position + 3, ?_⟩
        rw [List.cons_append, List.cons_append, List.singleton_append,
          decodeFrom_lead (by omega) (by omega) (announced?_three (by omega) (by omega)),
          decodeFrom_inner (by simp only [beq_iff_eq]; split <;> omega)
            (by simp only [beq_iff_eq]; split <;> omega) (by omega),
          decodeFrom_last (by omega) (by omega) (by omega), hchar _ (by omega)]
      · refine ⟨position + 4, ?_⟩
        rw [List.cons_append, List.cons_append, List.cons_append, List.singleton_append,
          decodeFrom_lead (by omega) (by omega) (announced?_four (by omega) (by omega)),
          decodeFrom_inner (by simp only [beq_iff_eq]; split <;> omega)
            (by simp only [beq_iff_eq]; split <;> omega) (by omega),
          decodeFrom_inner (by omega) (by omega) (by omega),
          decodeFrom_last (by omega) (by omega) (by omega), hchar _ (by omega)]

end Characters

-- ================================================================= texts

variable {cs : List Char}

theorem decodeFrom_encode (position : Nat) (cs : List Char) :
    decodeFrom position none (encode cs) = .ok cs := by
  induction cs generalizing position with
  | nil => rw [encode, List.flatMap_nil, decodeFrom]
  | cons c cs ih =>
      obtain ⟨next, h⟩ := decodeFrom_utf8EncodeChar position c (encode cs)
      rw [encode, List.flatMap_cons, ← encode, h, ih next]
      rfl

theorem decode_encode (cs : List Char) : decode (encode cs) = .ok cs :=
  decodeFrom_encode 0 cs

theorem encode_injective {cs ds : List Char} (h : encode cs = encode ds) : cs = ds :=
  Except.ok.inj ((decode_encode cs).symm.trans (h ▸ decode_encode ds))

/-- What is written reads as it was, but for the ends of lines. -/
theorem read_encode (cs : List Char) : read (encode cs) = .ok (unifyLines cs) := by
  rw [read, decode_encode]
  rfl

-- ================================================================= lines

theorem not_mem_unifyLines : '\r' ∉ unifyLines cs := by
  fun_induction unifyLines cs with
  | case1 => exact List.not_mem_nil
  | case2 cs ih => simpa using ih
  | case3 cs _ ih => simpa using ih
  | case4 c cs _ hc ih =>
      rw [List.mem_cons, not_or]
      exact ⟨fun h => hc h.symm, ih⟩

/-- What is read has no carriage returns. -/
theorem not_mem_of_read {bs : Bytes} (h : read bs = .ok cs) : '\r' ∉ cs := by
  unfold read at h
  cases hd : decode bs with
  | error f =>
      rw [hd] at h
      cases h
  | ok ds =>
      rw [hd] at h
      obtain rfl := Except.ok.inj h
      exact not_mem_unifyLines

theorem unifyLines_of_not_mem (h : '\r' ∉ cs) : unifyLines cs = cs := by
  fun_induction unifyLines cs with
  | case1 => rfl
  | case2 cs ih => simp at h
  | case3 cs _ ih => simp at h
  | case4 c cs _ hc ih => rw [ih fun hm => h (List.mem_cons_of_mem c hm)]

/-- The ends of lines are all there is to unify. -/
theorem unifyLines_eq_self_iff : unifyLines cs = cs ↔ '\r' ∉ cs :=
  ⟨fun h => h ▸ not_mem_unifyLines, unifyLines_of_not_mem⟩

end Codemod.Utf8
