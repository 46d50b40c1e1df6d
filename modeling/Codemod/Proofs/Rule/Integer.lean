/-
The integers that rules compute with.

Rules read integer literals, compare them with lengths and write sums of
them back. A token of digits is read in base ten; the language reads a
zero and octal digits in base eight. So what is read is what the language
has, unless the token is a legacy octal of eight or more, and the same
goes for the lengths that are compared and for the numbers that are
written.

Main statement: `integers_denote_iff`.
-/
import Codemod.Proofs.Parse.Number
import Codemod.Proofs.Rule.Idiom
import Mathlib.Tactic.Linarith

namespace Codemod

open Text

-- ======================================================= written numbers

/-- A natural number is written in base ten. -/
theorem writeNumber_eq_ok {n : Nat} {t : Text} (h : writeNumber n = .ok t) :
    t = ofChars (Nat.toDigits 10 n) := by
  unfold writeNumber at h
  split at h
  · rw [← Except.ok.inj h, ← Nat.toList_repr]
    rfl
  · cases h

/-- A natural number is written so that the language reads it as itself. -/
theorem value?_writeNumber {n : Int} {t : Text} (hn : 0 ≤ n) (h : writeNumber n = .ok t) :
    ∃ cs, t = ofChars cs ∧ Numeral.value? cs = some (n : ℚ) := by
  obtain ⟨m, rfl⟩ := Int.eq_ofNat_of_zero_le hn
  exact ⟨_, writeNumber_eq_ok h, by simpa using Numeral.value?_toDigits m⟩

-- ============================================================== integers

/-- The numbers of a parsed program are tokens. -/
theorem everyToken_of_parse {source : Text} {n : Node} (h : parse source = .ok n) :
    n.Every Node.IsToken :=
  fun _ hm => (lexed_of_parse h hm).token

section Values

variable {c : Cursor}

/-- An integer that is read is the value of the literal, unless the
literal is a legacy octal of eight or more. -/
theorem Cursor.integerValue_denotes {k : Int} (hall : c.node.Every Node.IsToken)
    (h : c.integerValue = .ok (some k)) :
    ∃ v, c.node.Denotes v ∧ (v = k ↔ ¬ c.node.IsLongOctal) ∧ (0 ≤ k → v ≤ k) := by
  obtain ⟨negative, t, m, hs, hne, hd, hread, hk⟩ := integerValue_eq_some_iff.1 h
  obtain ⟨l, hl, hnum, rfl⟩ := hs.exists_number
  obtain ⟨cs, hcode, hdigits⟩ := (hall l hl).digits hnum hd
  rw [hcode] at hs hread hne
  obtain rfl := Numeral.readDigits_eq_ok hdigits hread
  exact hs.denotes (by simpa [ofChars] using hne) hdigits hk

/-- The units of a text that can be stored are those that are counted. -/
theorem length_units_of_unitCount {t : Text} {n : Nat} (h : Cursor.unitCount t = .ok n) :
    t.units.length = n := by
  have hcount (cs : List Char) (k : Nat) : k + (ofChars cs).units.length
      = cs.foldl (fun n c => n + if c.toNat < 0x10000 then 1 else 2) k := by
    induction cs generalizing k with
    | nil => rfl
    | cons c cs ih =>
        have hunits : (Point.scalar c).units.length
            = if c.toNat < 0x10000 then 1 else 2 := by
          rw [Point.units, apply_ite List.length]
          rfl
        rw [List.foldl_cons, ← ih, ← hunits, Nat.add_assoc, ← List.length_append]
        rfl
  unfold Cursor.unitCount at h
  split at h
  · next s hs =>
      rw [toString?_eq_some_iff.1 hs, ← Except.ok.inj h, utf16Length, ← hcount, Nat.zero_add]
      rfl
  · cases h

/-- A literal that is taken for the length of a text is that length,
unless it is a legacy octal of eight or more. -/
theorem Cursor.isLengthOf_denotes {start : Cursor} {t : Text}
    (hall : c.node.Every Node.IsToken) (hstart : start.node.stringValue = .ok (some t))
    (h : c.isLengthOf start = .ok true) :
    ∃ v, c.node.Denotes v ∧ (v = t.units.length ↔ ¬ c.node.IsLongOctal) := by
  cases lengthOf_of_isLengthOf h with
  | @literal t' m ho hm hk =>
      obtain rfl : t = t' := Option.some.inj (Except.ok.inj (hstart.symm.trans ho))
      obtain ⟨v, hv, hiff, -⟩ := integerValue_denotes hall hk
      refine ⟨v, hv, ?_⟩
      rw [length_units_of_unitCount hm]
      simpa using hiff
  | named ho => cases hstart.symm.trans ho

/-- The sum of two numbers that are not less than they should be is right
just when both are. -/
theorem add_eq_add_iff_of_le {a n v u : ℚ} (ha : v ≤ a) (hn : u ≤ n) :
    a + n = v + u ↔ v = a ∧ u = n := by
  constructor
  · intro h
    constructor <;> linarith
  · rintro ⟨rfl, rfl⟩
    rfl

end Values

/-- What integer literals stand for: what is read, what is taken for the
length of a text and what is written for a range is what the language
makes of the literals, unless they are legacy octals of eight or more. -/
theorem integers_denote_iff {c : Cursor} (hall : c.node.Every Node.IsToken) :
    (∀ k, c.integerValue = .ok (some k) →
      ∃ v, c.node.Denotes v ∧ (v = k ↔ ¬ c.node.IsLongOctal))
    ∧ (∀ start t, start.node.stringValue = .ok (some t) → c.isLengthOf start = .ok true →
      ∃ v, c.node.Denotes v ∧ (v = t.units.length ↔ ¬ c.node.IsLongOctal))
    ∧ ∀ context w, ∀ r ∈ Rules.substr.rewrites context w, r.site = c →
      ∀ start length, c.arguments = [start, length] →
        ∃ receiver first last a n,
          r.new = Build.methodCall receiver "slice"
            [Build.number (ofChars first), Build.number (ofChars last)]
          ∧ start.node.Denotes a ∧ length.node.Denotes n
          ∧ (Numeral.value? first = some a ↔ ¬ start.node.IsLongOctal)
          ∧ (Numeral.value? last = some (a + n)
            ↔ ¬ start.node.IsLongOctal ∧ ¬ length.node.IsLongOctal) := by
  refine ⟨fun k hk => ?_, fun start t => Cursor.isLengthOf_denotes hall, ?_⟩
  · obtain ⟨v, hv, hiff, -⟩ := Cursor.integerValue_denotes hall hk
    exact ⟨v, hv, hiff⟩
  rintro context w r hr rfl start length hargs
  obtain ⟨receiver, -, -, -, hslice⟩ := Rules.substr_spec hr
  generalize r.new = new at hslice ⊢
  cases hslice with
  | whole hargs' => simp [hargs] at hargs'
  | rest hargs' => simp [hargs] at hargs'
  | @range start' length' a n x y hargs' ha hn hapos hnpos hx hy =>
      obtain ⟨rfl, rfl⟩ : start' = start ∧ length' = length := by
        simpa [hargs, eq_comm] using hargs'
      have hin : ∀ d ∈ r.site.arguments, d.node.Every Node.IsToken := fun d hd =>
        hall.of_mem_walk (Cursor.node_mem_walk (Cursor.mem_walk_of_mem_arguments hd))
      rw [hargs] at hin
      obtain ⟨v, hv, hviff, hvle⟩ := Cursor.integerValue_denotes (hin _ (by simp)) ha
      obtain ⟨u, hu, huiff, hule⟩ := Cursor.integerValue_denotes (hin _ (by simp)) hn
      obtain ⟨first, rfl, hfirst⟩ := value?_writeNumber hapos hx
      obtain ⟨last, rfl, hlast⟩ := value?_writeNumber (Int.add_nonneg hapos hnpos) hy
      refine ⟨receiver.node, first, last, v, u, rfl, hv, hu, ?_, ?_⟩
      · rw [hfirst, ← hviff, Option.some.injEq, eq_comm]
      · rw [hlast, ← hviff, ← huiff, Option.some.injEq, Int.cast_add,
          add_eq_add_iff_of_le (hvle hapos) (hule hnpos)]

/-- A number is no legacy octal where its characters are none. -/
theorem Node.not_isLongOctal {n : Node} {cs : List Char} (hk : n.is .number = true)
    (hcode : n.code = ofChars cs) (h : Numeral.isLegacyOctal cs = false) :
    ¬ n.IsLongOctal := by
  rintro ⟨negative, ds, hs, hoct, -⟩
  have hself : n.Spells false (ofChars cs) := hcode ▸ .number hk
  obtain ⟨-, rfl⟩ := hself.unique_chars hs
  rw [h] at hoct
  cases hoct

/-- A zero in front of an eight or a nine makes no octal. -/
theorem integers_denote_octal_like :
    ∃ n c, parse (ofString "x = 089;") = .ok n ∧ c ∈ (Cursor.top n).walk
      ∧ c.node.Every Node.IsToken ∧ c.code = ofString "089"
      ∧ c.integerValue = .ok (some 89) ∧ c.node.Denotes 89 := by
  obtain ⟨n, hn, htest⟩ := exists_of_parse_any (ofString "x = 089;")
    (fun n => (Cursor.top n).walk.any fun c => c.is .number && c.code == ofString "089"
      && decide (c.integerValue = .ok (some 89)))
    (by decide +kernel)
  obtain ⟨c, hc, htest⟩ := List.any_eq_true.1 htest
  simp only [Bool.and_eq_true, beq_iff_eq, decide_eq_true_eq] at htest
  obtain ⟨⟨hk, hcode⟩, hvalue⟩ := htest
  have hall : c.node.Every Node.IsToken :=
    (everyToken_of_parse hn).of_mem_walk (Cursor.node_mem_walk hc)
  obtain ⟨v, hv, hiff⟩ := (integers_denote_iff hall).1 89 hvalue
  have hchars : c.node.code = ofChars ['0', '8', '9'] := hcode
  obtain rfl := hiff.2 (Node.not_isLongOctal hk hchars (by decide))
  exact ⟨n, c, hn, hc, hall, hcode, hvalue, hv⟩

/-- The start of the range is eight and is taken for ten. -/
theorem integers_misread_octal :
    ∃ n c, parse (ofString "x = \"abcdefghijkl\".substr(010, 1);") = .ok n
      ∧ c ∈ (Cursor.top n).walk ∧ c.code = ofString "010" ∧ c.node.Denotes 8
      ∧ c.integerValue = .ok (some 10) ∧ ¬ c.node.Denotes 10
      ∧ (Rules.substr.apply .default (.ofProgram n)).1.render
        = ofString "x = \"abcdefghijkl\".slice(10, 11);" := by
  obtain ⟨n, hn, htest⟩ := exists_of_parse_any
    (ofString "x = \"abcdefghijkl\".substr(010, 1);")
    (fun n => ((Cursor.top n).walk.any fun c => c.is .number && c.code == ofString "010"
        && decide (c.integerValue = .ok (some 10)))
      && (Rules.substr.apply .default (.ofProgram n)).1.render
        == ofString "x = \"abcdefghijkl\".slice(10, 11);")
    (by decide +kernel)
  simp only [Bool.and_eq_true, List.any_eq_true, beq_iff_eq, decide_eq_true_eq] at htest
  obtain ⟨⟨c, hc, ⟨hk, hcode⟩, hvalue⟩, hrender⟩ := htest
  have hspells : c.node.Spells false (ofChars ['0', '1', '0']) := by
    have hself := Node.Spells.number hk
    rwa [show c.node.code = ofChars ['0', '1', '0'] from hcode] at hself
  have hdenotes : c.node.Denotes 8 := ⟨false, _, 8, hspells, by decide, rfl⟩
  refine ⟨n, c, hn, hc, hcode, hdenotes, hvalue, fun hten => ?_, hrender⟩
  exact absurd (hdenotes.unique hten) (by norm_num)

end Codemod
