/-
Looking at a node of a workspace.

A node that has been taken out of the program is no wrapper any more,
whatever its text says: what a wrapper is depends on the whole program.
-/
import Codemod.Edit.Move
import Codemod.Rule.Receiver

namespace Codemod

/-- The word for a provenance. -/
def Provenance.spelling : Provenance → String
  | .direct => "direct"
  | .bound => "bound"
  | .unknown => "unknown"

/-- The longest text shown in an outline, and how much of a longer one
is shown. -/
def outlineLimit : Nat := 40

/-- A node in one line: its kind and the start of its text. -/
def Node.outline (n : Node) : Text :=
  let code := n.code
  let start := if code.length > outlineLimit then
      code.take (outlineLimit - 3) ++ Text.ofString "..."
    else code
  Text.ofString "Node(" ++ Text.quoted (Text.ofString n.kind.spelling)
    ++ Text.ofString ", " ++ Text.quoted start ++ Text.ofString ")"

namespace Workspace

/-- Where the wrapper in an expression comes from. -/
def provenance (w : Workspace) (c : Cursor) (names : List Text) : Check Provenance :=
  if w.owns c then c.classify names else .ok .unknown

/-- The argument of the factory call behind an expression. -/
def wrappedArgument? (w : Workspace) (c : Cursor) (names : List Text) :
    Check (Option Cursor) :=
  if w.owns c then c.wrappedArgument? names else .ok none

/-- What may be put in the place of a wrapper. -/
def wrapperTarget? (w : Workspace) (c : Cursor) (names : List Text) :
    Check (Option Node) :=
  if w.owns c then c.wrapperTarget? names else .ok none

/-- The factory call may be replaced by its argument. -/
def isFoldable (w : Workspace) (c : Cursor) (copies : Int)
    (allowed names : List Text) : Check Bool :=
  if w.owns c then c.isFoldable copies allowed names else .ok false

/-- The element that a method call works on. -/
def receiverTarget? (w : Workspace) (context : RuleContext) (m : Cursor) :
    Check (Option Node) :=
  if w.owns m then Codemod.receiverTarget? context m else .ok none

/-- The name of the factory that made the receiver. -/
def factoryNameFor? (w : Workspace) (context : RuleContext) (m : Cursor) :
    Check (Option Text) :=
  if w.owns m then Codemod.factoryNameFor? context m else .ok none

end Workspace

namespace Cursor

/-- The plain calls of the named methods in a whole tree, without those
that spread an argument; none below the top of a tree. -/
def methodCalls (c : Cursor) (names : List String) : List (Cursor × Cursor × Text) :=
  if !c.above.isEmpty then []
  else (c.walk.filter (isMethodCall names)).filterMap fun call =>
    if call.hasSpread then none
    else call.calledMember?.map fun (m, name) => (call, m, name)

/-- The calls of functions of the factory among them. -/
def staticCalls (c : Cursor) (names : List String) (factory : List Text) :
    Check (List (Cursor × Text)) := do
  let calls ← (c.methodCalls names).filterM fun (_, m, _) =>
    match m.child? .object with
    | some o => o.isFactoryIdentifier factory
    | none => .ok false
  return calls.map fun (call, _, name) => (call, name)

/-- The test used for calls in comparisons: the node is a call. -/
def isCall (c : Cursor) : Check Bool := .ok (c.is .callExpression)

end Cursor

end Codemod
