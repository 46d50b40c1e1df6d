/-
Tests for presence.

An index is -1 or a natural number. A comparison of an index with a
constant tests for presence when it holds of every index but -1, and for
absence when it holds of -1 alone (`TellsPresence`). Three indices decide
which (`tellsPresence_iff`), the table lists exactly these comparisons
(`presenceTest?_eq_some_iff`), and so a comparison is taken exactly when
it has an index call on one side, an integer literal on the other, and
tells presence from absence (`presenceCheck_eq_some_iff`).
-/
import Codemod.Proofs.Effect.Comparison
import Codemod.Proofs.Tree.Integer

namespace Codemod

-- ========================================================== comparisons

/-- What an operator compares two integers for. -/
inductive Comparator where
  | same
  | different
  | below
  | atMost
  | above
  | atLeast
deriving DecidableEq

namespace Comparator

/-- All comparators. -/
def all : List Comparator := [same, different, below, atMost, above, atLeast]

/-- The operators of a comparator. -/
def words : Comparator → List String
  | same => ["===", "=="]
  | different => ["!==", "!="]
  | below => ["<"]
  | atMost => ["<="]
  | above => [">"]
  | atLeast => [">="]

/-- The comparator of an operator. -/
def ofWord? (op : Text) : Option Comparator := all.find? fun r => op.isOneOf r.words

/-- The outcome of a comparison. -/
def holds : Comparator → Int → Int → Bool
  | same, a, b => a == b
  | different, a, b => a != b
  | below, a, b => a < b
  | atMost, a, b => a ≤ b
  | above, a, b => b < a
  | atLeast, a, b => b ≤ a

/-- The comparison of `i`, on the left or on the right, with a constant. -/
def against (r : Comparator) (onLeft : Bool) (k i : Int) : Bool :=
  if onLeft then r.holds i k else r.holds k i

theorem exists_of_ofWord? {op : Text} {r : Comparator} (h : ofWord? op = some r) :
    ∃ s ∈ r.words, op = Text.ofString s := by
  have hone := List.find?_some h
  simp only [Text.isOneOf, List.any_eq_true, beq_iff_eq] at hone
  obtain ⟨s, hs, heq⟩ := hone
  exact ⟨s, hs, heq.symm⟩

theorem ofWord?_of_mem {r : Comparator} {s : String} (hs : s ∈ r.words) :
    ofWord? (Text.ofString s) = some r := by
  revert s
  cases r <;> decide

end Comparator

/-- Over all indices, the test holds of -1 alone when `negated`, and of
all but -1 otherwise. -/
def TellsPresence (test : Int → Bool) (negated : Bool) : Prop :=
  ∀ i, -1 ≤ i → (test i = true ↔ (i = -1 ↔ negated = true))

/-- What a comparison with a constant tells shows at the three least
indices. -/
theorem tellsPresence_iff {r : Comparator} {onLeft negated : Bool} {k : Int} :
    TellsPresence (r.against onLeft k) negated
      ↔ r.against onLeft k (-1) = negated
        ∧ r.against onLeft k 0 = !negated ∧ r.against onLeft k 1 = !negated := by
  constructor
  · intro h
    have hminus := h (-1) (by decide)
    have hzero := h 0 (by decide)
    have hone := h 1 (by decide)
    cases negated <;> simp_all
  · rintro ⟨hminus, hzero, hone⟩ i hi
    cases r <;> cases onLeft <;> cases negated <;>
      simp [Comparator.against, Comparator.holds] at hminus hzero hone ⊢ <;> omega

-- ============================================================ the table

/-- The table has one entry for each operator, constant and side. -/
theorem presenceTests_functional : ∀ e ∈ presenceTests, ∀ e' ∈ presenceTests,
    e.1 = e'.1 → e.2.1 = e'.2.1 → e.2.2.1 = e'.2.2.1 → e = e' := by
  decide

theorem Text.ofString_injective {s t : String} (h : Text.ofString s = Text.ofString t) :
    s = t := by
  apply String.toList_injective
  exact List.map_injective_iff.2 (fun _ _ => Point.scalar.inj) h

theorem presenceTest?_eq_some_iff_mem {s : String} {k : Int} {onLeft negated : Bool} :
    presenceTest? (Text.ofString s) k onLeft = some negated
      ↔ (s, k, onLeft, negated) ∈ presenceTests := by
  constructor
  · intro h
    obtain ⟨⟨o, k', l, b⟩, hfind, hb⟩ := Option.map_eq_some_iff.1 h
    have hmem := List.mem_of_find?_eq_some hfind
    have hkey := List.find?_some hfind
    simp only [Bool.and_eq_true, beq_iff_eq] at hkey
    obtain ⟨⟨hop, rfl⟩, rfl⟩ := hkey
    obtain rfl := Text.ofString_injective hop
    obtain rfl : b = negated := hb
    exact hmem
  · intro hmem
    have hsome : (presenceTest? (Text.ofString s) k onLeft).isSome := by
      rw [presenceTest?, Option.isSome_map, List.find?_isSome]
      exact ⟨_, hmem, by simp⟩
    obtain ⟨b', hb⟩ := Option.isSome_iff_exists.1 hsome
    obtain ⟨⟨o, k', l, b⟩, hfind, -⟩ := Option.map_eq_some_iff.1 hb
    have hkey := List.find?_some hfind
    simp only [Bool.and_eq_true, beq_iff_eq] at hkey
    obtain ⟨⟨hop, rfl⟩, rfl⟩ := hkey
    obtain rfl := Text.ofString_injective hop
    have hsame := presenceTests_functional _ (List.mem_of_find?_eq_some hfind) _ hmem
      rfl rfl rfl
    rw [presenceTest?, hfind, Option.map_some, hsame]

/-- The operators of the table compare integers. -/
theorem exists_of_presenceTest? {op : Text} {k : Int} {onLeft negated : Bool}
    (h : presenceTest? op k onLeft = some negated) :
    ∃ r, Comparator.ofWord? op = some r := by
  have hall : ∀ e ∈ presenceTests, (Comparator.ofWord? (Text.ofString e.1)).isSome := by
    decide
  obtain ⟨e, hfind, -⟩ := Option.map_eq_some_iff.1 h
  have hkey := List.find?_some hfind
  simp only [Bool.and_eq_true, beq_iff_eq] at hkey
  rw [← hkey.1.1]
  exact Option.isSome_iff_exists.1 (hall e (List.mem_of_find?_eq_some hfind))

/-- The table is sound and complete. -/
theorem presenceTest?_eq_some_iff {op : Text} {r : Comparator} {k : Int}
    {onLeft negated : Bool} (h : Comparator.ofWord? op = some r) :
    presenceTest? op k onLeft = some negated
      ↔ TellsPresence (r.against onLeft k) negated := by
  obtain ⟨s, hs, rfl⟩ := Comparator.exists_of_ofWord? h
  rw [presenceTest?_eq_some_iff_mem, tellsPresence_iff]
  -- one entry of the table, or none, for each operator, side and answer
  cases r <;> simp only [Comparator.words, List.mem_cons, List.not_mem_nil, or_false] at hs
  all_goals
    obtain rfl | rfl := hs
    all_goals
      cases onLeft <;> cases negated <;>
        simp [presenceTests, Comparator.against, Comparator.holds] <;> omega

-- ============================================================ the check

/-- The expression is an integer literal, or the negation of one. -/
def Node.IsIntegerLiteral (n : Node) : Prop :=
  ∃ negative t, n.Spells negative t ∧ t ≠ [] ∧ t.all Point.isDigit = true

/-- A comparison has an index call on one side; on the right only when
there is none on the left. -/
inductive ComparesIndex (isIndexCall : Cursor → Check Bool) (c : Cursor) :
    Cursor → Comparator → Bool → Cursor → Prop where
  | onLeft {call other : Cursor} {op : Text} {r : Comparator} :
    c.comparison? = some (call, op, other) → Comparator.ofWord? op = some r →
    isIndexCall call = .ok true → ComparesIndex isIndexCall c call r true other
  | onRight {call other : Cursor} {op : Text} {r : Comparator} :
    c.comparison? = some (other, op, call) → Comparator.ofWord? op = some r →
    isIndexCall other = .ok false → isIndexCall call = .ok true →
    ComparesIndex isIndexCall c call r false other

section Check

variable {c call : Cursor} {negated : Bool} {isIndexCall : Cursor → Check Bool}

theorem isIntegerLiteral_of_integerValue {k : Int}
    (h : c.integerValue = .ok (some k)) : c.node.IsIntegerLiteral := by
  obtain ⟨negative, t, m, hs, hne, hall, -, -⟩ := Cursor.integerValue_eq_some_iff.1 h
  exact ⟨negative, t, hs, hne, hall⟩

/-- A test for presence is one in the table, with an integer as the
constant. -/
theorem test_eq_some_iff {d other : Cursor} {op : Text} {onLeft : Bool} :
    (do match ← other.integerValue with
        | some k => return (presenceTest? op k onLeft).map (call, ·)
        | none => return none : Check (Option (Cursor × Bool))) = .ok (some (d, negated))
      ↔ call = d ∧ ∃ k, other.integerValue = .ok (some k)
        ∧ presenceTest? op k onLeft = some negated := by
  cases hk : other.integerValue with
  | error f => simp [bind, Except.bind]
  | ok k =>
      cases k with
      | none => simp [bind, Except.bind, pure, Except.pure]
      | some k =>
          simp only [bind, Except.bind, pure_eq_ok, Option.map_eq_some_iff, Prod.mk.injEq,
            exists_eq_left', Except.ok.injEq, Option.some.injEq]
          constructor
          · rintro ⟨b, hb, rfl, rfl⟩
            exact ⟨rfl, hb⟩
          · rintro ⟨rfl, hb⟩
            exact ⟨negated, hb, rfl, rfl⟩

/-- What the check finds has an index call on one side, on the right only
when there is none on the left, and is a test on the other. -/
theorem presenceCheck_eq_some_iff_test :
    c.presenceCheck isIndexCall = .ok (some (call, negated))
      ↔ ∃ left op right, c.comparison? = some (left, op, right)
        ∧ ((isIndexCall left = .ok true ∧ left = call ∧ ∃ k,
            right.integerValue = .ok (some k) ∧ presenceTest? op k true = some negated)
          ∨ (isIndexCall left = .ok false ∧ isIndexCall right = .ok true ∧ right = call
            ∧ ∃ k, left.integerValue = .ok (some k)
              ∧ presenceTest? op k false = some negated)) := by
  unfold Cursor.presenceCheck
  cases hc : c.comparison? with
  | none => simp [pure_eq_ok]
  | some parts =>
      obtain ⟨left, op, right⟩ := parts
      simp only [bind_eq_ok, Option.some.injEq, Prod.mk.injEq]
      constructor
      · rintro ⟨onLeft, hl, h⟩
        cases onLeft with
        | true =>
            exact ⟨left, op, right, ⟨rfl, rfl, rfl⟩, Or.inl ⟨hl, test_eq_some_iff.1 h⟩⟩
        | false =>
            obtain ⟨onRight, hr, h⟩ := bind_eq_ok.1 h
            cases onRight with
            | true =>
                exact ⟨left, op, right, ⟨rfl, rfl, rfl⟩,
                  Or.inr ⟨hl, hr, test_eq_some_iff.1 h⟩⟩
            | false => cases h
      · rintro ⟨l, o, r, ⟨rfl, rfl, rfl⟩, ⟨hl, h⟩ | ⟨hl, hr, h⟩⟩
        · exact ⟨true, hl, test_eq_some_iff.2 h⟩
        · exact ⟨false, hl, bind_eq_ok.2 ⟨true, hr, test_eq_some_iff.2 h⟩⟩

/-- A comparison is taken for a test for presence exactly when one side is
an index call, the other an integer literal or its negation, and over all
indices the comparison tells presence, or absence when `negated`. -/
theorem presenceCheck_eq_some_iff :
    c.presenceCheck isIndexCall = .ok (some (call, negated))
      ↔ ∃ r onLeft other k, ComparesIndex isIndexCall c call r onLeft other
        ∧ other.node.IsIntegerLiteral ∧ other.integerValue = .ok (some k)
        ∧ TellsPresence (r.against onLeft k) negated := by
  rw [presenceCheck_eq_some_iff_test]
  constructor
  · rintro ⟨left, op, right, hc, ⟨hl, rfl, k, hk, ht⟩ | ⟨hl, hr, rfl, k, hk, ht⟩⟩
    · obtain ⟨r, hop⟩ := exists_of_presenceTest? ht
      refine ⟨r, true, right, k, .onLeft hc hop hl, isIntegerLiteral_of_integerValue hk, hk, ?_⟩
      exact (presenceTest?_eq_some_iff hop).1 ht
    · obtain ⟨r, hop⟩ := exists_of_presenceTest? ht
      refine ⟨r, false, left, k, .onRight hc hop hl hr, isIntegerLiteral_of_integerValue hk,
        hk, ?_⟩
      exact (presenceTest?_eq_some_iff hop).1 ht
  · rintro ⟨r, onLeft, other, k, hcompares, -, hk, htells⟩
    cases hcompares with
    | onLeft hc hop hcall =>
        have ht := (presenceTest?_eq_some_iff hop).2 htells
        exact ⟨_, _, _, hc, Or.inl ⟨hcall, rfl, k, hk, ht⟩⟩
    | onRight hc hop hother hcall =>
        have ht := (presenceTest?_eq_some_iff hop).2 htells
        exact ⟨_, _, _, hc, Or.inr ⟨hother, hcall, rfl, k, hk, ht⟩⟩

end Check

end Codemod
