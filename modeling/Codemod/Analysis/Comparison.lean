/-
Comparisons with an index: `index(…) !== -1` and its relatives.

A call that returns an index tests for presence when it is compared with
the right constant, on either side of the operator.
-/
import Codemod.Analysis.Evidence

namespace Codemod

/-- The longest run of digits that is read as a number. -/
def maxDigits : Nat := 4300

/-- The number that a text of digits denotes. -/
def readDigits (t : Text) : Check Nat :=
  match t.mapM Point.decimal? with
  | none => .error (.notDecimal t)
  | some ds =>
    if ds.length > maxDigits then .error (.tooManyDigits ds.length)
    else .ok (ds.foldl (fun n d => n * 10 + d) 0)

/-- How a comparison of an index tests for presence: the operator, the
constant, whether the index stands on the left, and whether the test
asks for absence. -/
def presenceTests : List (String × Int × Bool × Bool) := [
  ("!==", -1, true, false), ("!=", -1, true, false), (">", -1, true, false),
  ("===", -1, true, true), ("==", -1, true, true), ("<=", -1, true, true),
  (">=", 0, true, false), ("<", 0, true, true),
  ("!==", -1, false, false), ("!=", -1, false, false), ("<", -1, false, false),
  ("===", -1, false, true), ("==", -1, false, true), (">=", -1, false, true),
  ("<=", 0, false, false), (">", 0, false, true)]

/-- Whether a comparison asks for absence, when it tests for presence at
all. -/
def presenceTest? (op : Text) (constant : Int) (onLeft : Bool) : Option Bool :=
  (presenceTests.find? fun (o, k, l, _) =>
    Text.ofString o == op && k == constant && l == onLeft).map (·.2.2.2)

/-- Whether an equality operator negates. -/
def equality? (op : Text) : Option Bool :=
  if op.isOneOf ["===", "=="] then some false
  else if op.isOneOf ["!==", "!="] then some true
  else none

namespace Cursor

/-- The value of a literal of decimal digits. -/
def digitsValue (c : Cursor) : Check (Option Nat) :=
  if c.is .number && !c.code.isEmpty && c.code.all Point.isDigit then
    (readDigits c.code).map some
  else .ok none

/-- The value of an integer literal, possibly negated. -/
def integerValue (c : Cursor) : Check (Option Int) := do
  let e := c.unparen
  if e.is .unaryExpression then
    match e.child? .operator, e.inner? .argument with
    | some op, some a =>
      if op.code == Text.ofString "-" then
        return (← a.digitsValue).map fun n => -(Int.ofNat n)
      else return none
    | _, _ => return none
  else return (← e.digitsValue).map Int.ofNat

/-- The parts of a binary expression, without parentheses. -/
def comparison? (c : Cursor) : Option (Cursor × Text × Cursor) :=
  if !c.is .binaryExpression then none
  else match c.inner? .left, c.child? .operator, c.inner? .right with
    | some l, some op, some r => some (l, op.code, r)
    | _, _, _ => none

/-- The index call of a comparison that tests for presence, and whether
the comparison asks for absence. -/
def presenceCheck (c : Cursor) (isIndexCall : Cursor → Check Bool) :
    Check (Option (Cursor × Bool)) := do
  match c.comparison? with
  | none => return none
  | some (left, op, right) =>
    if ← isIndexCall left then
      match ← right.integerValue with
      | some k => return (presenceTest? op k true).map (left, ·)
      | none => return none
    else if ← isIndexCall right then
      match ← left.integerValue with
      | some k => return (presenceTest? op k false).map (right, ·)
      | none => return none
    else return none

/-- The call of an equality, what it is compared with, and whether the
comparison is negated. -/
def equalityCheck (c : Cursor) (isCall : Cursor → Check Bool) :
    Check (Option (Cursor × Cursor × Bool)) := do
  match c.comparison? with
  | none => return none
  | some (left, op, right) =>
    match equality? op with
    | none => return none
    | some negated =>
      if ← isCall left then return some (left, right, negated)
      if ← isCall right then return some (right, left, negated)
      return none

end Cursor

end Codemod
