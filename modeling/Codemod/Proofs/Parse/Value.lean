/-
The values of literals that are read.

The literals of a parsed program are spelled: without substitutions they
are a row of parts between two quotes (`spelled_of_parse`). So what
reading their values gives is told by the parts: a text if all parts are
valued, and nothing otherwise, but for two things. An escaped backslash in
front of a zero and a digit is taken for an octal escape, and a carriage
return in the source of a template is kept where the template denotes a
line feed.

Main statement: `stringValue_denotes`.
-/
import Codemod.Proofs.Parse.Program
import Codemod.Proofs.Tree.Literal
import Codemod.Proofs.Tree.Print

namespace Codemod

open Literal

-- ================================================================ copies

namespace Node

variable {n : Node}

theorem spelled_copy : n.copy.Spelled ↔ n.Spelled := by
  have hsub : n.copy.children.any (·.is .templateSubstitution)
      = n.children.any (·.is .templateSubstitution) := by
    rw [children_copy, List.any_map]
    exact congrArg (List.any _) (funext fun c => is_copy c _)
  have hnamed : n.copy.named = n.named := by rw [copy_eq]
  have hk : n.copy.isAny [.string, .templateString]
      = n.isAny [.string, .templateString] := by
    simp only [isAny, funext (is_copy n)]
  rw [Spelled, Spelled, hsub, hnamed, hk, code_copy]

theorem lexed_copy : n.copy.Lexed ↔ n.Lexed := by
  have htoken : n.copy.IsToken ↔ n.IsToken := by
    rw [IsToken, IsToken, is_copy, code_copy]
  exact ⟨fun h => ⟨spelled_copy.1 h.spelled, htoken.1 h.token⟩,
    fun h => ⟨spelled_copy.2 h.spelled, htoken.2 h.token⟩⟩

end Node

-- ============================================================== literals

variable {source : Text} {n m : Node}

theorem lexed_of_parse (h : parse source = .ok n) (hm : m ∈ n.walk) : m.Lexed := by
  obtain ⟨cs, t, -, ht, rfl⟩ := exists_of_parse h
  have hall : (t.renumber 0).1.Every Node.Lexed :=
    (Node.every_renumber fun _ => Node.lexed_copy).2 (Parse.parsed_tree? ht).lexed
  exact (Node.every_iff.1 (hall.of_mem_walk hm)).1

/-- The literals of a parsed program are spelled. -/
theorem spelled_of_parse (h : parse source = .ok n) (hm : m ∈ n.walk) : m.Spelled :=
  (lexed_of_parse h hm).spelled

/-- A literal of a parsed program that holds no substitution is a row of
parts between two quotes. Where reading its value gives a text, this is the
value of the parts, unless a line ends in the source where the literal
denotes another end of line, or none. A text is given if each part stands
for one, and no escaped backslash is mistaken for a part of an octal
escape; and reading breaks off at the first part without a text that names
a number far too large, if no octal zero was found before. -/
theorem stringValue_denotes (h : parse source = .ok n) (hm : m ∈ n.walk)
    (hnamed : m.named = true) (hk : m.isAny [.string, .templateString] = true)
    (hsub : m.children.any (·.is .templateSubstitution) = false) :
    ∃ quote body parts, m.code = quote :: (body ++ [quote]) ∧ Reading quote body parts
      ∧ (∀ v, m.stringValue = .ok (some v) →
        (value? (m.is .templateString) parts = some v.units
          ↔ ∀ p, .raw p ∈ parts → breaks (m.is .templateString) p = false))
      ∧ ((∃ v, m.stringValue = .ok (some v))
        ↔ (∀ p ∈ parts, p.IsValued) ∧ ¬ Mistakable parts)
      ∧ (m.stringValue = .error .oversizedEscape
        ↔ IsOversized parts ∧ ¬ (HasOctalZero parts ∨ Mistakable parts)) := by
  obtain ⟨quote, body, parts, hcode, hread⟩ := spelled_of_parse h hm hnamed hk hsub
  refine ⟨quote, body, parts, hcode, hread, ?_⟩
  by_cases hfound : HasOctalZero parts ∨ Mistakable parts
  · -- nothing is decoded
    rw [Node.stringValue_refused hk hsub hcode hread hfound]
    refine ⟨nofun, iff_of_false (fun ⟨v, hv⟩ => by cases hv) fun hno => ?_,
      iff_of_false nofun fun hno => hno.2 hfound⟩
    obtain ⟨t, ht⟩ := hno.1 _ (hfound.resolve_right hno.2)
    cases ht
  · have hmistake : ¬ Mistakable parts := fun hmis => hfound (Or.inr hmis)
    rw [Node.stringValue_decoded hk hsub hcode hread hfound, and_iff_left hmistake,
      and_iff_left hfound, ← exists_decoded_iff, ← decoded_eq_oversized]
    cases hdecoded : decoded parts with
    | ok u =>
        refine ⟨?_, by simp, by simp⟩
        rintro v hv
        obtain rfl : u = v := by simpa using hv
        exact value?_iff hdecoded
    | error r => cases r <;> simp

/-- The value of a string with escapes is read. -/
theorem stringValue_denotes_escaped :
    let literal := Text.ofString "\"\\x41\\u\x7b1F600\x7d\""
    ∃ n m body parts, parse (Text.ofString "x = " ++ literal) = .ok n ∧ m ∈ n.walk
      ∧ m.code = literal ∧ literal = .scalar '"' :: (body ++ [.scalar '"'])
      ∧ Reading (.scalar '"') body parts ∧ (∀ p ∈ parts, p.IsValued)
      ∧ m.stringValue = .ok (some (Text.ofString "A😀"))
      ∧ value? false parts = some [0x41, 0xD83D, 0xDE00] := by
  intro literal
  obtain ⟨n, hn, htest⟩ := exists_of_parse_any (Text.ofString "x = " ++ literal)
    (fun n => n.walk.any fun m => m.named && m.isAny [.string, .templateString]
      && !m.children.any (·.is .templateSubstitution) && !m.is .templateString
      && m.code == literal
      && decide (m.stringValue = .ok (some (Text.ofString "A😀"))))
    (by decide +kernel)
  obtain ⟨m, hm, htest⟩ := List.any_eq_true.1 htest
  simp only [Bool.and_eq_true, Bool.not_eq_true', beq_iff_eq, decide_eq_true_eq] at htest
  obtain ⟨⟨⟨⟨⟨hnamed, hk⟩, hsub⟩, htemplate⟩, hliteral⟩, hvalue⟩ := htest
  obtain ⟨quote, body, parts, hcode, hread, hunits, hvalued, -⟩ :=
    stringValue_denotes hn hm hnamed hk hsub
  have hbody : literal = .scalar '"' :: (literal.tail.dropLast ++ [.scalar '"']) := rfl
  rw [hliteral, hbody, List.cons.injEq] at hcode
  obtain ⟨rfl, hcode⟩ := hcode
  obtain rfl := List.append_cancel_right hcode
  rw [htemplate] at hunits
  refine ⟨n, m, _, parts, hn, hm, hliteral, hbody, hread, (hvalued.1 ⟨_, hvalue⟩).1,
    hvalue, (hunits _ hvalue).2 fun p hp => ?_⟩
  have hplain : ∀ p ∈ literal.tail.dropLast, breaks false p = false := by decide
  exact hplain p (hread.mem_of_raw hp)

/-- An escaped backslash before `01` has a value, and none is read. -/
theorem stringValue_mistakes_backslash :
    ∃ n m body parts, parse (Text.ofString "x = \"\\\\01\";") = .ok n ∧ m ∈ n.walk
      ∧ m.is .string = true ∧ m.code = .scalar '"' :: (body ++ [.scalar '"'])
      ∧ Reading (.scalar '"') body parts ∧ value? false parts = some [0x5C, 0x30, 0x31]
      ∧ m.stringValue = .ok none := by
  obtain ⟨n, hn, htest⟩ := exists_of_parse_any (Text.ofString "x = \"\\\\01\";")
    (fun n => n.walk.any fun m => m.is .string && m.code == Text.ofString "\"\\\\01\""
      && decide (m.stringValue = .ok none))
    (by decide +kernel)
  obtain ⟨m, hm, htest⟩ := List.any_eq_true.1 htest
  simp only [Bool.and_eq_true, beq_iff_eq, decide_eq_true_eq] at htest
  refine ⟨n, m, Text.ofString "\\\\01", _, hn, hm, htest.1.1, htest.1.2,
    .escape (e := [.scalar '\\']) (.itself_of_not_mem (by decide))
      (.raw (by decide) (by decide) (.raw (by decide) (by decide) .nil)), by decide, htest.2⟩

end Codemod
