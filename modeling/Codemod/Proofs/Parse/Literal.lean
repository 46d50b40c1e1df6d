/-
Literals as they are read.

The parser cuts the body of a literal into tokens: runs of plain
characters and escape sequences, which it knows by their length alone. A
token in front of a text that can be read as the parts of a literal makes
a text that can be read so (`exists_reading_escape`, `Reading.append`):
where a token is longer than the escape it starts with, what follows in it
is plain.
-/
import Mathlib.Algebra.Group.Nat.Defs
import Codemod.Proofs.Text.Literal
import Codemod.Proofs.Tree.Assembly

namespace Codemod

open Literal Text

-- =============================================================== numbers

theorem exists_point_code {n : Nat} (h : n ≤ 0x10FFFF) : ∃ p : Point, p.code = n := by
  by_cases hc : n.isValidChar
  · exact ⟨.scalar (Char.ofNatAux n hc), rfl⟩
  · have hn : n - 0xD800 < 2048 := by
      rw [Nat.isValidChar] at hc
      omega
    refine ⟨.surrogate ⟨n - 0xD800, hn⟩, ?_⟩
    rw [Nat.isValidChar] at hc
    simp only [Point.code]
    omega

namespace Parse

section Digits

variable {c : Char} {cs : List Char}

theorem exists_hexDigit? (h : isHexDigit c = true) :
    ∃ k < 16, hexDigit? (.scalar c) = some k := by
  have hdigit : c.isDigit = true → '0' ≤ c ∧ c ≤ '9' := Char.isDigit_iff_toNat.1
  simp only [isHexDigit, Bool.or_eq_true, Bool.and_eq_true, decide_eq_true_eq] at h
  simp only [hexDigit?, Bool.and_eq_true, decide_eq_true_eq]
  split
  · next hc =>
      have hc : c.toNat ≤ 57 := hc.2
      exact ⟨_, show c.toNat - 48 < 16 by omega, rfl⟩
  · next hdec =>
      split
      · next hc =>
          have hc : c.toNat ≤ 102 := hc.2
          exact ⟨_, show c.toNat - 97 + 10 < 16 by omega, rfl⟩
      · next hlow =>
          have hc : 'A' ≤ c ∧ c ≤ 'F' :=
            (h.resolve_left (not_or.2 ⟨hdec ∘ hdigit, hlow⟩))
          have hle : c.toNat ≤ 70 := hc.2
          rw [if_pos hc]
          exact ⟨_, show c.toNat - 65 + 10 < 16 by omega, rfl⟩

/-- Hexadecimal digits make a number, as large as their number admits. -/
theorem exists_hexValue? (h : ∀ c ∈ cs, isHexDigit c = true) :
    ∃ n < 16 ^ cs.length, hexValue? (ofChars cs) = some n := by
  have hgo : ∀ value, ∃ n < (value + 1) * 16 ^ cs.length,
      (ofChars cs).foldlM (fun n d => (hexDigit? d).map (n * 16 + ·)) value = some n := by
    induction cs with
    | nil => exact fun value => ⟨value, by simp, rfl⟩
    | cons c cs ih =>
        rw [List.forall_mem_cons] at h
        intro value
        obtain ⟨k, hk, hc⟩ := exists_hexDigit? h.1
        obtain ⟨n, hn, hcs⟩ := ih h.2 (value * 16 + k)
        refine ⟨n, Nat.lt_of_lt_of_le hn ?_, ?_⟩
        · rw [List.length_cons, Nat.pow_succ', ← Nat.mul_assoc]
          have hle : value * 16 + k + 1 ≤ (value + 1) * 16 := by omega
          exact Nat.mul_le_mul_right _ hle
        · show (Point.scalar c :: ofChars cs).foldlM _ value = _
          rw [List.foldlM_cons, hc]
          exact hcs
  obtain ⟨n, hn, hcs⟩ := hgo 0
  exact ⟨n, by simpa using hn, hcs⟩

end Digits

-- ================================================================ tokens

section Tokens

variable {q : Char} {c : Char} {cs rest : List Char} {t : Text} {ps : List Part}

/-- The characters that literals are put between. -/
def isDelimiter (c : Char) : Bool := c == '"' || c == '\'' || c == '\x60'

/-- A character of a class without delimiters. -/
theorem ne_of_isDelimiter {f : Char → Bool} (hq : isDelimiter q = true) (hc : f c = true)
    (hf : f '"' = false ∧ f '\'' = false ∧ f '\x60' = false) : c ≠ q := by
  rintro rfl
  simp only [isDelimiter, Bool.or_eq_true, beq_iff_eq] at hq
  rcases hq with (rfl | rfl) | rfl
  · exact absurd hc (by simp [hf.1])
  · exact absurd hc (by simp [hf.2.1])
  · exact absurd hc (by simp [hf.2.2])

/-- Plain characters in front of a text. -/
theorem Reading.append (h : ∀ c ∈ cs, c ≠ '\\' ∧ c ≠ q) (ht : Reading (.scalar q) t ps) :
    Reading (.scalar q) (ofChars cs ++ t) (cs.map (fun c => .raw (.scalar c)) ++ ps) := by
  induction cs with
  | nil => exact ht
  | cons c cs ih =>
      rw [List.forall_mem_cons] at h
      exact .raw (by simpa using h.1.1) (by simpa using h.1.2) (ih h.2)

theorem exists_reading_braced (h : ∀ c ∈ cs, isHexDigit c = true) (hne : cs ≠ [])
    (ht : Reading (.scalar q) t ps) : ∃ ps', Reading (.scalar q)
      (ofChars ('\\' :: 'u' :: '\x7b' :: (cs ++ ['\x7d'])) ++ t) ps' := by
  obtain ⟨n, -, hn⟩ := exists_hexValue? h
  have htext : ofChars ('\\' :: 'u' :: '\x7b' :: (cs ++ ['\x7d'])) ++ t = .scalar '\\'
      :: (.scalar 'u' :: .scalar '\x7b' :: (ofChars cs ++ [.scalar '\x7d']) ++ t) := by
    simp [ofChars]
  have hne : ofChars cs ≠ [] := by simpa [ofChars] using hne
  rw [htext]
  by_cases hlarge : 0x10FFFF < n
  · exact ⟨_, .escape (.beyond hne hn hlarge) ht⟩
  · obtain ⟨p, rfl⟩ := exists_point_code (Nat.le_of_not_lt hlarge)
    exact ⟨_, .escape (.point hne hn) ht⟩

theorem exists_reading_unit (h : ∀ c ∈ cs, isHexDigit c = true) (hlen : cs.length = 4)
    (ht : Reading (.scalar q) t ps) :
    ∃ ps', Reading (.scalar q) (ofChars ('\\' :: 'u' :: cs) ++ t) ps' := by
  obtain ⟨n, hlt, hn⟩ := exists_hexValue? h
  rw [hlen] at hlt
  obtain ⟨p, rfl⟩ := exists_point_code (show n ≤ 0x10FFFF by omega)
  have hlen : (ofChars cs).length = 4 := (List.length_map ..).trans hlen
  exact ⟨_, .escape (.unit hlen hn) ht⟩

theorem exists_reading_hex {a b : Char} (ha : isHexDigit a = true)
    (hb : isHexDigit b = true) (ht : Reading (.scalar q) t ps) :
    ∃ ps', Reading (.scalar q) (ofChars ['\\', 'x', a, b] ++ t) ps' := by
  have hab : ∀ c ∈ [a, b], isHexDigit c = true := by simp [ha, hb]
  obtain ⟨n, hlt, hn⟩ := exists_hexValue? hab
  simp only [List.length_cons, List.length_nil] at hlt
  obtain ⟨p, rfl⟩ := exists_point_code (show n ≤ 0x10FFFF by omega)
  exact ⟨_, .escape (.hex hn) ht⟩

/-- A backslash in front of a character that starts no longer escape. -/
theorem exists_reading_pair (hx : c ≠ 'x') (hu : c ≠ 'u') (ht : Reading (.scalar q) t ps) :
    ∃ ps', Reading (.scalar q) (ofChars ['\\', c] ++ t) ps' := by
  by_cases hzero : c = '0'
  · subst hzero
    by_cases hnext : ∃ d t', t = d :: t' ∧ d.test Char.isDigit = true
    · obtain ⟨d, t', rfl, hd⟩ := hnext
      exact ⟨_, .escape (.octalZero hd) ht⟩
    · refine ⟨_, .escape (.null fun d hd => ?_) ht⟩
      obtain ⟨t', rfl⟩ := List.head?_eq_some_iff.1 hd
      simpa using fun hdigit => hnext ⟨d, t', rfl, hdigit⟩
  by_cases hcr : c = '\r'
  · subst hcr
    by_cases hnext : t.head? = some (.scalar '\n')
    · obtain ⟨t', rfl⟩ := List.head?_eq_some_iff.1 hnext
      cases ht with
      | raw _ _ ht' => exact ⟨_, .escape (e := [.scalar '\r', .scalar '\n']) .crlf ht'⟩
    · exact ⟨_, .escape (.cr hnext) ht⟩
  by_cases hdigit : c ∈ positiveDigits
  · exact ⟨_, .escape (.digit hdigit) ht⟩
  by_cases hend : c ∈ lineEnds
  · exact ⟨_, .escape (.lineEnd hend) ht⟩
  by_cases hcontrol : c ∈ controls.map (·.1)
  · obtain ⟨⟨c, d⟩, hmem, rfl⟩ := List.mem_map.1 hcontrol
    exact ⟨_, .escape (.control hmem) ht⟩
  · refine ⟨_, .escape (.itself_of_not_mem fun hr => ?_) ht⟩
    simp only [reserved, List.cons_append, List.mem_cons, List.mem_append] at hr
    exact hr.elim hx (Or.elim · hu (Or.elim · hzero (Or.elim · hcr
      (Or.elim · (Or.elim · hcontrol hdigit) hend))))

theorem take_runLength (p : Char → Bool) (cs : List Char) :
    cs.take (runLength p cs) = cs.takeWhile p :=
  (List.prefix_iff_eq_take.1 (List.takeWhile_prefix p)).symm

theorem of_mem_take_runLength {p : Char → Bool} {k : Nat} (hk : k ≤ runLength p cs) :
    ∀ c ∈ cs.take k, p c = true := by
  intro c hc
  have hmem := (List.take_sublist_take_left hk).subset hc
  rw [take_runLength] at hmem
  exact List.all_eq_true.1 List.all_takeWhile c hmem

/-- The plain characters of a template. -/
theorem of_mem_take_templateRunLength :
    ∀ c ∈ cs.take (templateRunLength cs), c ≠ '\\' ∧ c ≠ '\x60' := by
  induction cs with
  | nil => simp
  | cons d cs ih =>
      unfold templateRunLength
      split
      · contradiction
      · simp
      · next e es _ heq =>
          obtain ⟨rfl, rfl⟩ := List.cons.inj heq
          split
          · simp
          · next hd =>
              rw [List.take_succ_cons, List.forall_mem_cons]
              exact ⟨by simpa [and_comm] using hd, ih⟩

theorem exists_reading_name (h : 0 < nameEscapeLength rest) (ht : Reading (.scalar q) t ps) :
    ∃ ps', Reading (.scalar q) (ofChars (rest.take (nameEscapeLength rest)) ++ t) ps' := by
  unfold nameEscapeLength at h ⊢
  split at h
  · next cs =>
      simp only at h ⊢
      split at h
      · next tail hdrop =>
          split at h
          · cases h
          · next hn =>
              have hlen : (cs.take (runLength isHexDigit cs)).length
                  = runLength isHexDigit cs := by
                rw [take_runLength, runLength]
              have htake : cs.take (runLength isHexDigit cs + 1)
                  = cs.take (runLength isHexDigit cs) ++ ['\x7d'] := by
                rw [List.take_add_one, ← List.head?_drop, hdrop]
                rfl
              rw [if_neg hn]
              simp only [List.take_succ_cons, htake]
              refine exists_reading_braced (of_mem_take_runLength (Nat.le_refl _)) ?_ ht
              rintro hnil
              rw [hnil] at hlen
              exact hn hlen.symm
      · cases h
  · next a b c d cs _ =>
      split at h
      · next hhex =>
          rw [if_pos hhex]
          exact exists_reading_unit (List.all_eq_true.1 hhex) rfl ht
      · cases h
  · cases h

/-- An octal digit, for the parser. -/
def isOctalDigit (c : Char) : Bool := '0' ≤ c && c ≤ '7'

theorem exists_reading_octal {k : Nat} (hq : isDelimiter q = true)
    (hc : isOctalDigit c = true) (hk : k ≤ runLength isOctalDigit cs)
    (ht : Reading (.scalar q) t ps) :
    ∃ ps', Reading (.scalar q) (ofChars ('\\' :: c :: cs.take k) ++ t) ps' := by
  have hrun : ∀ d ∈ cs.take k, d ≠ '\\' ∧ d ≠ q := by
    intro d hd
    have hoctal := of_mem_take_runLength hk d hd
    refine ⟨?_, ne_of_isDelimiter hq hoctal (by decide)⟩
    rintro rfl
    cases hoctal
  refine exists_reading_pair (fun h => ?_) (fun h => ?_) (Reading.append hrun ht)
  · subst h
    cases hc
  · subst h
    cases hc

/-- An escape sequence in front of a text. -/
theorem exists_reading_escape (hq : isDelimiter q = true) (h : 0 < escapeLength rest)
    (ht : Reading (.scalar q) t ps) :
    ∃ ps', Reading (.scalar q) (ofChars (rest.take (escapeLength rest)) ++ t) ps' := by
  unfold escapeLength at h ⊢
  split at h
  · next a b cs =>
      split at h
      · next hhex =>
          rw [Bool.and_eq_true] at hhex
          rw [if_pos (by simpa using hhex)]
          exact exists_reading_hex hhex.1 hhex.2 ht
      · cases h
  · cases h
  · exact exists_reading_name h ht
  · next c cs hx hx' hu =>
      split
      · next hoctal =>
          have hoctal : isOctalDigit c = true := hoctal
          have hrun : runLength isOctalDigit (c :: cs) = runLength isOctalDigit cs + 1 := by
            rw [runLength, List.takeWhile_cons_of_pos hoctal]
            rfl
          have hlen : 1 + min 3 (runLength isOctalDigit (c :: cs))
              = min 2 (runLength isOctalDigit cs) + 2 := by omega
          show ∃ ps', Reading _ (ofChars (List.take
            (1 + min 3 (runLength isOctalDigit (c :: cs))) _) ++ t) ps'
          rw [hlen]
          exact exists_reading_octal hq hoctal (Nat.min_le_right _ _) ht
      · cases cs with
        | nil => exact exists_reading_pair hx' hu ht
        | cons d cs =>
            dsimp only
            split
            · next hline =>
                rw [Bool.and_eq_true] at hline
                have hd : ∀ e ∈ [d], e ≠ '\\' ∧ e ≠ q := by
                  refine List.forall_mem_singleton.2 ⟨?_, ?_⟩
                  · rintro rfl
                    exact absurd hline.2 (by decide)
                  · exact ne_of_isDelimiter hq hline.2 (by decide)
                exact exists_reading_pair hx' hu (Reading.append hd ht)
            · exact exists_reading_pair hx' hu ht
  · cases h

end Tokens

end Parse

namespace Node

variable {n : Node}

/-- A literal without substitutions is a row of parts between two quotes. -/
def Spelled (n : Node) : Prop :=
  n.named = true → n.isAny [.string, .templateString] = true →
    n.children.any (·.is .templateSubstitution) = false →
      ∃ q body ps, n.code = q :: (body ++ [q]) ∧ Reading q body ps

/-- A number is the token at the front of some characters, unless it is
the word `number`. -/
def IsToken (n : Node) : Prop :=
  n.is .number = true →
    (∃ cs, 0 < Parse.numberLength cs ∧ n.code = Text.ofChars (cs.take (Parse.numberLength cs)))
      ∨ n.code = Text.ofString "number"

/-- What the text of a literal is. -/
structure Lexed (n : Node) : Prop where
  spelled : n.Spelled
  token : n.IsToken

/-- The node is proper, and the literals in it are read as literals. -/
structure Parsed (n : Node) : Prop extends n.Proper where
  lexed : n.Every Lexed

theorem lexed_of_kind (h : n.isAny [.string, .templateString, .number] = false) :
    n.Lexed := by
  have hkinds : n.isAny [.string, .templateString] = false ∧ n.is .number = false := by
    simpa [Node.isAny, and_assoc] using h
  constructor
  · intro _ hk
    rw [hkinds.1] at hk
    cases hk
  · intro hk
    rw [hkinds.2] at hk
    cases hk

theorem lexed_placed {r : Option Role} {l : Text} (h : n.Lexed) : (n.placed r l).Lexed := by
  constructor
  · intro hnamed hk hsub
    rw [code_placed]
    exact h.spelled hnamed hk hsub
  · intro hk
    rw [code_placed]
    exact h.token hk

theorem everyLexed_placed {r : Option Role} {l : Text} (h : n.Every Lexed) :
    (n.placed r l).Every Lexed := by
  rw [every_iff] at h ⊢
  exact ⟨lexed_placed h.1, h.2⟩

/-- In most roles anything can stand. -/
theorem Parsed.placed {r : Option Role} {l : Text} (h : n.Parsed)
    (hr : roleTest? r = none) : (n.placed r l).Parsed :=
  ⟨proper_placed h.shaped hr, everyLexed_placed h.lexed⟩

/-- The kinds of node that are literals, whatever they hold. -/
def isLiteralKind (k : Kind) (named : Bool) : Bool :=
  named && k.isAny [.string, .templateString] || k.isAny [.number]

theorem lexed_of_isLiteralKind (h : isLiteralKind n.kind n.named = false) : n.Lexed := by
  rw [isLiteralKind, Bool.or_eq_false_iff] at h
  constructor
  · intro hnamed hk
    have hk : n.kind.isAny [.string, .templateString] = true := hk
    rw [hnamed, hk] at h
    cases h.1
  · intro hk
    have hk : n.kind.isAny [.number] = true := (Bool.or_false _).trans hk
    rw [hk] at h
    cases h.2

/-- A bare token is of the kind that its text spells. -/
theorem lexed_of_word {t : String} (hnamed : n.named = false) (hk : n.kind = Kind.ofName t)
    (hcode : n.code = Text.ofString t) : n.Lexed := by
  constructor
  · intro h
    rw [hnamed] at h
    cases h
  · intro h
    have hspelling : t = "number" := by
      rw [← Kind.spelling_ofName t, ← hk, is_iff.1 h]
      rfl
    rw [hcode, hspelling]
    exact Or.inr rfl

theorem parsed_of_lexed (hs : n.Proper) (hcs : n.children = []) (hl : n.Lexed) :
    n.Parsed := by
  refine ⟨hs, every_iff.2 ⟨hl, ?_⟩⟩
  rw [hcs]
  exact List.forall_mem_nil _

theorem parsed_of_leaf (hs : n.Proper) (hcs : n.children = [])
    (hk : isLiteralKind n.kind n.named = false) : n.Parsed :=
  parsed_of_lexed hs hcs (lexed_of_isLiteralKind hk)

end Node

end Codemod
