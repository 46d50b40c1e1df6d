/-
What a callback does: which `this`, `arguments` and `return` are its
own, and which parameters it takes.
-/
import Codemod.Rule.Receiver

namespace Codemod.Cursor

/-- The nodes of a function that are not inside a nested function;
arrow functions are entered on demand. -/
def ownNodes (c : Cursor) (enterArrows : Bool) : List Cursor :=
  c.walkBelowUntil fun n =>
    n.isFunction && !(enterArrows && n.is .arrowFunction)

/-- The `this` that the function determines. -/
def thisReferences (c : Cursor) : List Cursor :=
  (c.ownNodes true).filter (·.is .thisExpr)

/-- The value of each `return` of the function; none for a bare one. -/
def returnValues (c : Cursor) : List (Option Cursor) :=
  ((c.ownNodes false).filter (·.is .returnStatement)).map (·.operands.head?)

/-- The name `arguments`. -/
def isArgumentsName (c : Cursor) : Bool :=
  c.is .identifier && c.code == Text.ofString "arguments"

/-- The function reads its own `arguments`. -/
def usesArguments (c : Cursor) : Bool := (c.ownNodes true).any isArgumentsName

/-- The function reads its own `this` or `arguments`. -/
def usesThis (c : Cursor) : Bool :=
  (c.ownNodes true).any fun n => n.is .thisExpr || n.isArgumentsName

/-- The function may return `false`, which jQuery takes for a signal: an
arrow with an expression for a body returns the literal, any other
function returns something other than `true`. -/
def mayReturnFalse (c : Cursor) : Bool :=
  match c.child? .body with
  | some body =>
    if c.is .arrowFunction && !body.is .statementBlock then
      body.unparen.is .falseLit
    else returnsOther
  | none => returnsOther
where
  /-- Some `return` has a value other than `true`. -/
  returnsOther : Bool :=
    c.returnValues.any fun
      | some v => !v.unparen.is .trueLit
      | none => false

/-- The parameters of a function, when all are plain names. -/
def simpleParameters? (c : Cursor) : Option (List Cursor) :=
  match c.child? .parameter with
  | some p => if p.is .identifier then some [p] else none
  | none =>
    match c.child? .parameters with
    | none => none
    | some ps => if ps.operands.all (·.is .identifier) then some ps.operands else none

/-- The function takes parameters. -/
def hasParameters (c : Cursor) : Bool := !c.parameters.isEmpty

end Codemod.Cursor

namespace Codemod

/-- A tree with one of its nodes replaced where it stands. -/
def Node.replacing (whole : Node) (old : Cursor) (new : Node) : Node :=
  match old.node.id with
  | some i => whole.substitute i fun p o => Workspace.fitted p o new
  | none => whole

/-- A callback with its two parameters exchanged. -/
def Node.exchanging (whole : Node) (first second : Cursor) : Node :=
  match first.parent? with
  | some ps =>
    whole.replacing ps (Build.formalParameters [second.node, first.node])
  | none => whole

end Codemod
