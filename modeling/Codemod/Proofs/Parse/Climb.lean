/-
Climbing through the levels of expressions.

Between an operand and the expression that it is there is a level for each
thing that could come with it: accesses and calls, operators in front and
behind, a condition, an assignment. Where the token in front starts none of
these and the token behind continues none, what one level reads is what the
next level reads.
-/
import Codemod.Proofs.Parse.Ahead

namespace Codemod.Parse

open Step

variable {src : List Char} {α β : Type}

-- =============================================================== tokens

/-- No access, call or update continues an operand with the token. -/
def Lexeme.isQuiet (l : Lexeme) : Bool :=
  l.shape != .backtick && !([".", "[", "?.", "(", "++", "--"].any l.isSpelled)

/-- The token continues no expression but a sequence. -/
def Lexeme.isEnd (l : Lexeme) : Bool :=
  l.isQuiet && (precedence? l.text).isNone
    && !("?" :: "=" :: compoundAssignments).any l.isSpelled

/-- The token can follow an operand: it makes no arrow function of it. -/
def Lexeme.mayFollow (l : Lexeme) : Bool :=
  !l.isSpelled "function" && !l.isName && !l.isSpelled "=>"

/-- The text starts like a name. -/
def startsLikeName (t : String) : Bool := t.toList.head?.any fun c => isNameStart c || c == '\\'

/-- An operand with accesses and calls can start with the token. -/
def startsChain (shape : Shape) (t : String) : Bool :=
  shape == .number && t.toList.head?.any Char.isDigit
    || shape == .quote && ["\"", "'"].contains t
    || shape == .word && startsLikeName t
      && (!reservedWords.contains t || ["true", "false"].contains t)
    || shape == .mark && ["(", "["].contains t

/-- An operand can start with the token. -/
def startsOperand (shape : Shape) (t : String) : Bool :=
  startsChain shape t || shape == .word && t == "new" || shape == .mark && t == "\x7b"
    || shape.isSpelled && unaryOperators.contains t

theorem isSpelled_eq_false_of_starts {f : Shape → String → Bool} {l : Lexeme} {t : String}
    (h : f l.shape l.text = true) (hword : f .word t = false) (hmark : f .mark t = false) :
    l.isSpelled t = false := by
  rw [Bool.eq_false_iff]
  intro hspelled
  simp only [Lexeme.isSpelled, Bool.and_eq_true, Bool.or_eq_true, beq_iff_eq] at hspelled
  obtain ⟨hshape | hshape, rfl⟩ := hspelled
  · rw [hshape, hword] at h
    cases h
  · rw [hshape, hmark] at h
    cases h

-- ================================================================= runs

theorem run_after {p : Step src α} {k : α → Step src β} {s s₁ : Progress src} {a : α}
    (h : p.run s = some (a, s₁)) : (p >>= k).run s = (k a).run s₁ := by
  rw [StateT.run_bind, h]
  rfl

theorem run_sees_false {s : Progress src} {t : String}
    (h : (ahead s.rest).isSpelled t = false) : (sees t : Step src Bool).run s = some (false, s) := by
  rw [run_sees, h]

theorem run_seesAny_false {s : Progress src} {ts : List String}
    (h : ts.any (ahead s.rest).isSpelled = false) :
    (seesAny ts : Step src Bool).run s = some (false, s) := by
  rw [run_seesAny, h]

variable {s s₁ : Progress src} {fuel : Nat} {b rest : List Char} {shape : Shape} {t : String}

-- =============================================================== levels

/-- Behind an operand no access is read if none comes. -/
theorem run_accesses (h : (ahead s.rest).isQuiet = true) (start : Nat) (calls : Bool) :
    (run (fuel + 1) (.accesses start calls) : Step src Unit).run s = some ((), s) := by
  simp only [Lexeme.isQuiet, Bool.and_eq_true, bne_iff_ne, Bool.not_eq_true', List.any_cons,
    List.any_nil, Bool.or_eq_false_iff] at h
  obtain ⟨hback, hdot, hopen, hoptional, hcall, -⟩ := h
  show (accesses (run fuel) start calls : Step src Unit).run s = _
  unfold accesses
  rw [run_after (run_lastIsAny _ s)]
  split
  · rfl
  · rw [run_after (run_peek s)]
    simp only [hdot, hopen, hoptional, hcall, hback, Bool.and_false, Bool.false_eq_true,
      if_false, beq_iff_eq]
    rfl

/-- An operand without an operator in front is an operand. -/
theorem run_unary (h : Comes s.rest b shape t rest) (hstart : startsOperand shape t = true)
    (hplain : unaryOperators.any (ahead s.rest).isSpelled = false)
    (hrun : (run fuel (.access true) : Step src Unit).run s = some ((), s₁))
    (hquiet : (ahead s₁.rest).isQuiet = true) :
    (run (fuel + 1) .unary : Step src Unit).run s = some ((), s₁) := by
  have hahead : startsOperand (ahead s.rest).shape (ahead s.rest).text = true := by
    rw [h.ahead_eq, hstart]
  have hupdate : ["++", "--"].any (ahead s.rest).isSpelled = false := by
    simp [isSpelled_eq_false_of_starts (t := "++") hahead rfl rfl,
      isSpelled_eq_false_of_starts (t := "--") hahead rfl rfl]
  have hawait := isSpelled_eq_false_of_starts (t := "await") hahead rfl rfl
  have hfollow : ["++", "--"].any (ahead s₁.rest).isSpelled = false := by
    simp only [Lexeme.isQuiet, Bool.and_eq_true, bne_iff_ne, Bool.not_eq_true', List.any_cons,
      List.any_nil, Bool.or_eq_false_iff] at hquiet
    simp [hquiet]
  show (unary (run fuel) : Step src Unit).run s = _
  unfold unary
  rw [run_after (run_mark_of_comes h), run_after (run_seesAny_false hplain)]
  simp only [Bool.false_eq_true, if_false]
  rw [run_after (run_seesAny_false hupdate)]
  simp only [Bool.false_eq_true, if_false]
  rw [run_after (run_tokenIf hawait)]
  simp only [Bool.false_eq_true, if_false]
  rw [run_after hrun, run_after (run_seesAny_false hfollow), run_after (run_gap s₁)]
  simp only [Bool.false_and]
  rw [run_after (run_lastIsAny _ s₁)]
  rfl

/-- No operator is read behind an operand if none comes, nor behind an arrow
function. -/
theorem run_operators
    (h : (precedence? (ahead s.rest).text).isNone = true ∨ ∃ m ts, s.trees = m :: ts
      ∧ m.is .arrowFunction = true) (start level : Nat) :
    (run (fuel + 1) (.operators start level false) : Step src Unit).run s = some ((), s) := by
  show (operators (run fuel) start level false : Step src Unit).run s = _
  unfold operators
  rw [run_after (run_lastIsAny _ s)]
  rcases h with h | ⟨m, ts, hs, hm⟩
  · have hnext : (nextOperator false : Step src _).run s = some (none, s) := by
      unfold nextOperator
      rw [run_after (run_peek s)]
      rw [Option.isNone_iff_eq_none] at h
      split
      · rfl
      · rw [h]
        rfl
    split
    · rfl
    · rw [run_after hnext]
      rfl
  · rw [hs, if_pos (by simp [Node.isAny, hm])]
    rfl

/-- An operand without an operator behind it. -/
theorem run_binary (h : Comes s.rest b shape t rest)
    (hrun : (run (fuel + 1) .unary : Step src Unit).run s = some ((), s₁))
    (hnone : (precedence? (ahead s₁.rest).text).isNone = true ∨ ∃ m ts, s₁.trees = m :: ts
      ∧ m.is .arrowFunction = true) (level : Nat) :
    (run (fuel + 2) (.binary level false) : Step src Unit).run s = some ((), s₁) := by
  show (binary (run (fuel + 1)) level false : Step src Unit).run s = _
  unfold binary
  rw [run_after (run_mark_of_comes h), run_after hrun, run_operators hnone]

/-- An operand without a condition behind it. -/
theorem run_conditional (h : Comes s.rest b shape t rest)
    (hrun : (run fuel (.binary 1 false) : Step src Unit).run s = some ((), s₁))
    (hnone : (ahead s₁.rest).isSpelled "?" = false) :
    (conditional (run fuel) false : Step src Unit).run s = some ((), s₁) := by
  unfold conditional
  rw [run_after (run_mark_of_comes h), run_after hrun, run_after (run_sees_false hnone),
    run_after (run_lastIsAny _ s₁)]
  rfl

/-- An expression that is no assignment. -/
theorem run_assignment (h : Comes s.rest b shape t rest) (hstart : startsOperand shape t = true)
    (hrun : (run fuel (.binary 1 false) : Step src Unit).run s = some ((), s₁))
    (hend : (ahead s₁.rest).isEnd = true) :
    (run (fuel + 1) (.assignment false) : Step src Unit).run s = some ((), s₁) := by
  have hahead : startsOperand (ahead s.rest).shape (ahead s.rest).text = true := by
    rw [h.ahead_eq, hstart]
  have hyield := isSpelled_eq_false_of_starts (t := "yield") hahead rfl rfl
  simp only [Lexeme.isEnd, Bool.and_eq_true, Bool.not_eq_true', List.any_cons,
    Bool.or_eq_false_iff] at hend
  obtain ⟨-, hcondition, hassign, hcompound⟩ := hend
  show (assignment (run fuel) false : Step src Unit).run s = _
  unfold assignment
  rw [run_after (run_sees_false hyield)]
  simp only [Bool.false_eq_true, if_false]
  rw [run_after (run_mark_of_comes h), run_after (run_conditional h hrun hcondition),
    run_after (run_sees_false hassign), run_after (run_lastIsAny _ s₁)]
  simp only [Bool.false_and, Bool.false_eq_true, if_false]
  rw [run_after (run_seesAny_false hcompound), run_after (run_lastIsAny _ s₁)]
  rfl

/-- A single expression. -/
theorem run_expression (h : Comes s.rest b shape t rest)
    (hrun : (run fuel (.assignment false) : Step src Unit).run s = some ((), s₁))
    (hnone : (ahead s₁.rest).isSpelled "," = false) :
    (run (fuel + 1) (.expression false) : Step src Unit).run s = some ((), s₁) := by
  show (expression (run fuel) false : Step src Unit).run s = _
  unfold expression
  rw [run_after (run_mark_of_comes h), run_after hrun, run_after (run_sees_false hnone)]
  rfl

end Codemod.Parse
