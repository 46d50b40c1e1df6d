/-
Evidence about values.

Only what the source makes certain counts: literals, results of
well-known methods on them, and names bound once to such a value and
never used in a way that could change it.
-/
import Codemod.Analysis.Alias

namespace Codemod

/-- The string methods that return a string. -/
def stringMethods : List String := [
  "slice", "substr", "substring", "toLowerCase", "toUpperCase", "trim",
  "trimStart", "trimEnd", "trimLeft", "trimRight", "repeat", "padStart",
  "padEnd", "concat", "replace", "replaceAll"]

/-- The array methods that return an array. -/
def arrayMethods : List String :=
  ["slice", "map", "filter", "flat", "flatMap", "reverse", "sort"]

/-- The array members that neither make holes nor let the array
escape. -/
def readingMembers : List String := [
  "length", "push", "indexOf", "includes", "forEach", "map", "filter",
  "some", "every", "find", "findIndex", "join", "slice", "reduce"]

/-- The calls that only read the arrays passed to them. -/
def readingCalls : List String :=
  ["inArray", "each", "grep", "map", "indexOf", "includes"]

namespace Cursor

/-- The name is neither declared here nor assigned to anywhere in the
file. -/
def isGlobal (c : Cursor) (name : Text) : Bool :=
  (c.binding? name).isNone && !c.root.isWritten name

/-- The receiver of a call of one of the named methods. -/
def methodReceiver? (c : Cursor) (names : List String) : Option Cursor :=
  if !c.is .callExpression then none
  else match c.inner? .function with
    | none => none
    | some callee =>
      if c.node.isOptional || callee.node.isOptional then none
      else match callee.node.propertyName? with
        | some p => if p.isOneOf names then callee.inner? .object else none
        | none => none

/-- The expression is a string, within `fuel` receivers. -/
def isStringWithin : Nat → Cursor → Bool
  | 0, _ => false
  | fuel + 1, c =>
    let e := c.unparen
    if e.isAny [.string, .templateString] then true
    else match e.methodReceiver? stringMethods with
      | some r => isStringWithin fuel r
      | none => false

/-- The expression certainly evaluates to a string. -/
def isString (c : Cursor) : Bool := isStringWithin c.node.size c

/-- The children of an array literal leave a place empty; `expecting`
when an element may come next. -/
def leavesHole : Bool → List Node → Bool
  | _, [] => false
  | expecting, c :: cs =>
    if c.is .comment || c.kind.spelling == "[" || c.kind.spelling == "]" then
      leavesHole expecting cs
    else if c.kind.spelling == "," then expecting || leavesHole true cs
    else leavesHole false cs

/-- The call is `Array.from` or `Array.of` of the language. -/
def isArrayFactoryCall (c : Cursor) : Bool :=
  c.is .callExpression
    && match c.inner? .function with
      | some callee =>
        (match callee.node.propertyName? with
          | some p => p.isOneOf ["from", "of"]
          | none => false)
        && (match callee.child? .object with
          | some o => o.node.isIdentifier "Array"
          | none => false)
        && c.isGlobal "Array"
      | none => false

/-- The expression is an array without holes, within `fuel` receivers;
`known` decides for names. -/
def isArrayWithin (known : Cursor → Bool) : Nat → Cursor → Bool
  | 0, _ => false
  | fuel + 1, c =>
    let e := c.unparen
    if e.is .array then !leavesHole true e.node.children
    else if e.is .identifier then known e
    else if e.isArrayFactoryCall then true
    else match e.methodReceiver? arrayMethods with
      | some r => isArrayWithin known fuel r
      | none => false

/-- The expression is an array without holes, no name being followed. -/
def isPlainArray (c : Cursor) : Bool :=
  isArrayWithin (fun _ => false) c.node.size c

/-- The member access is the target of an assignment or update. -/
def isMemberWritten (member : Cursor) : Bool :=
  match member.parent? with
  | some outer =>
    outer.isAny [.assignmentExpression, .augmentedAssignmentExpression,
        .updateExpression]
      && (outer.hasChild .left member || outer.hasChild .argument member)
  | none => false

/-- The use of an array neither changes it nor lets it escape. -/
def isReadingUse (use : Cursor) : Bool :=
  let holder := use.climb
  match holder.parent? with
  | none => false
  | some p =>
    if p.is .memberExpression && p.hasChild .object holder then
      (match p.node.propertyName? with
        | some name => name.isOneOf readingMembers
        | none => false)
      && !p.isMemberWritten
    else if p.is .forInStatement && p.hasChild .right holder then true
    else p.is .arguments
      && match p.parent? with
        | some call => (call.methodReceiver? readingCalls).isSome
        | none => false

/-- The name is bound once to an array without holes, and each of its
uses leaves the array as it is. -/
def isDenseName (c : Cursor) : Bool :=
  match c.resolve? c.code, c.bindingScope? c.code with
  | some init, some scope =>
    init.isPlainArray && (scope.references c.code).all isReadingUse
  | _, _ => false

/-- The expression certainly evaluates to an array without holes; names
are followed on demand. -/
def isArray (c : Cursor) (follow : Bool) : Bool :=
  isArrayWithin (fun e => follow && e.isDenseName) c.node.size c

/-- A literal on which strict and value comparison agree. -/
def isPrimitive (c : Cursor) : Bool :=
  let e := c.unparen
  e.isAny [.number, .trueLit, .falseLit, .nullLit] || e.isString

end Cursor

end Codemod
