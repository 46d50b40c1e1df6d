/-
Reading expressions: arguments, property names, literals.
-/
import Codemod.Fault
import Codemod.Text.Escape
import Codemod.Tree.Cursor

namespace Codemod

/-- The outcome of a test that can fail on unreadable literals. -/
abbrev Check := Except Fault

/-- A test that goes on after another has succeeded where that one
has. -/
theorem bind_eq_ok {α β : Type} {x : Check α} {f : α → Check β} {b : β} :
    (x >>= f) = .ok b ↔ ∃ a, x = .ok a ∧ f a = .ok b := by
  cases x with
  | error e => simp [bind, Except.bind]
  | ok a => simp [bind, Except.bind]

theorem pure_eq_ok {α : Type} {a b : α} : (pure a : Check α) = .ok b ↔ a = b := by
  simp [pure, Except.pure]

namespace Node

/-- The node is optional: it holds a `?.` of its own. -/
def isOptional (n : Node) : Bool :=
  (n.child? .optionalChain).isSome
    || n.children.any fun c => !c.named && c.text == some (Text.ofString "?.")

/-- The name behind the dot of a member access, when it is plain. -/
def propertyName? (n : Node) : Option Text :=
  if !n.is .memberExpression then none
  else match n.child? .property with
    | some p => if p.is .propertyIdentifier then p.text else none
    | none => none

/-- The identifier with a given name. -/
def isIdentifier (n : Node) (name : Text) : Bool :=
  n.is .identifier && n.text == some name

/-- The text that a string literal, or a template without
substitutions, denotes; none for escapes without a single meaning. -/
def stringValue (n : Node) : Check (Option Text) :=
  if !n.isAny [.string, .templateString] then .ok none
  else if n.children.any (·.is .templateSubstitution) then .ok none
  else match Text.unescape ((n.code.drop 1).dropLast) with
    | .ok t => .ok (some t)
    | .error .ambiguous => .ok none
    | .error .oversized => .error .oversizedEscape

/-- A string whose value is known. -/
def isStringLiteral (n : Node) : Check Bool := do
  return (← n.stringValue).isSome

/-- An immutable literal without side effects. -/
def isLiteral (n : Node) : Check Bool :=
  if n.isAny [.number, .trueLit, .falseLit, .nullLit, .undefinedLit] then .ok true
  else n.isStringLiteral

/-- A function written out as an expression. -/
def isFunctionLiteral (n : Node) : Bool :=
  n.isAny [.functionExpression, .functionWord, .arrowFunction, .generatorFunction]

end Node

namespace Cursor

/-- The arguments of a call, comments left out. -/
def arguments (c : Cursor) : List Cursor :=
  match c.child? .arguments with
  | some a => if a.is .arguments then a.operands else []
  | none => []

/-- An argument of the call is spread. -/
def hasSpread (c : Cursor) : Bool := c.arguments.any (·.is .spreadElement)

/-- The child in a role, without the parentheses around it. -/
def inner? (c : Cursor) (r : Role) : Option Cursor := (c.child? r).map unparen

/-- The child in a role is the given node. -/
def hasChild (c : Cursor) (r : Role) (d : Cursor) : Bool :=
  match c.child? r with
  | some e => e.same d
  | none => false

/-- The statement that consists of the expression, parentheses apart. -/
def statement? (c : Cursor) : Option Cursor :=
  match c.climb.parent? with
  | some p => if p.is .expressionStatement then some p else none
  | none => none

end Cursor

end Codemod
