/-
Putting nodes into the document and taking them out.
-/
import Codemod.Rule.Receiver

namespace Codemod

/-- The methods that make a node. -/
def nodeMakers : List String := ["createElement", "createTextNode", "cloneNode"]

namespace Cursor

/-- A plain call of a method that makes a node. -/
def makesNode (c : Cursor) : Bool :=
  let e := c.unparen
  e.is .callExpression && !e.node.isOptional
    && match e.inner? .function with
      | some callee =>
        !callee.node.isOptional
          && match callee.node.propertyName? with
            | some p => p.isOneOf nodeMakers
            | none => false
      | none => false

/-- A call that makes a node, or a name bound once to one. -/
def isNewNode (c : Cursor) (follow : Bool) : Bool :=
  let e := c.unparen
  if e.is .identifier then
    follow && match e.resolve? e.code with
      | some init => init.makesNode
      | none => false
  else e.makesNode

end Cursor

namespace Rules

/-- `$(el).remove()` and `.empty()` are methods of the element. -/
def removeAndEmpty : Rule := .ofSweeps "remove-and-empty-to-native" "jquery"
  "$(el).remove() / .empty() -> el.remove() / el.replaceChildren()"
  [.ofMethods ["remove", "empty"] fun context call m method args => do
    if !args.isEmpty || !call.isDiscarded then return none
    match ← receiverTarget? context m with
    | none => return none
    | some target =>
      let name : Text :=
        if method == Text.ofString "remove" then "remove" else "replaceChildren"
      return some (Build.methodCall target name [])]

/-- Inserting a fresh node is a method of the element of the same
name. -/
def insertion : Rule := .ofSweeps "insertion-to-native" "jquery"
  "$(el).append(node) -> el.append(node), for freshly created nodes"
  [.ofMethods ["append", "prepend", "before", "after"] fun context call m method args => do
    match args with
    | [arg] =>
      if !arg.isNewNode true || !call.isDiscarded then return none
      match ← receiverTarget? context m with
      | none => return none
      | some target => return some (Build.methodCall target method [arg.node])
    | _ => return none]

end Rules

end Codemod
