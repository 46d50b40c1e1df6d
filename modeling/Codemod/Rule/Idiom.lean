/-
Older idioms of the language that have a standard replacement.

A receiver's type has to be evident from the source, since methods such
as `indexOf` exist on more than arrays and strings.
-/
import Codemod.Analysis.Comparison
import Codemod.Rule.Receiver

namespace Codemod

/-- The built-in collections that iterate over what they hold. -/
def iterableConstructors : List String := ["Set", "Map"]

/-- A number as it is written. -/
def writeNumber (n : Int) : Check Text :=
  if n.natAbs < Nat.pow 10 maxDigits then .ok (toString n) else .error .numberTooLong

namespace Cursor

/-- A primitive literal, or a name bound once to one. -/
def isPrimitiveValue (c : Cursor) : Bool :=
  let e := c.unparen
  if e.is .identifier then
    match e.resolve? e.code with
    | some init => init.isPrimitive
    | none => false
  else e.isPrimitive

/-- An `indexOf` call of one value on a string or an array. -/
def isIndexOfCall (c : Cursor) : Bool :=
  match c.methodReceiver? ["indexOf"], c.arguments with
  | some receiver, [arg] =>
    !c.hasSpread
      && if receiver.isString then arg.isPrimitiveValue
        else receiver.isArray true && arg.isPrimitive
  | _, _ => false

/-- An `indexOf` call of one value on a string. -/
def isStringIndexOfCall (c : Cursor) : Bool :=
  match c.methodReceiver? ["indexOf"], c.arguments with
  | some receiver, [arg] =>
    receiver.isString && !c.hasSpread && arg.isPrimitiveValue
  | _, _ => false

/-- A `substring` call on a string that takes its start. -/
def isStartCall (c : Cursor) : Check Bool := do
  match c.methodReceiver? ["substring"], c.arguments with
  | some receiver, [first, _] =>
    if !receiver.isString || c.hasSpread then return false
    return (← first.integerValue) == some 0
  | _, _ => return false

/-- The number of units of sixteen bits of a text. -/
def unitCount (t : Text) : Check Nat :=
  match t.toString? with
  | some s => .ok (Text.utf16Length s)
  | none => .error (.unencodable .utf16 t)

/-- The expression is the length of the string `start`. -/
def isLengthOf (c start : Cursor) : Check Bool := do
  let e := c.unparen
  match ← start.node.stringValue with
  | some value =>
    let n ← e.integerValue
    return n == some (Int.ofNat (← unitCount value))
  | none =>
    if !start.is .identifier || e.node.isOptional then return false
    if e.node.propertyName? != some (Text.ofString "length") then return false
    match e.child? .object, start.resolve? start.code with
    | some o, some init => return o.node.isIdentifier start.code && init.isString
    | _, _ => return false

/-- The expression iterates over what `Array.from` would copy. -/
def isIterable (c : Cursor) : Bool :=
  let e := c.unparen
  e.isArray true || e.isString
    || if e.is .newExpression then
        match e.inner? .constructorOf with
        | some maker =>
          maker.is .identifier && maker.code.isOneOf iterableConstructors
            && e.isGlobal maker.code
        | none => false
      else match e.methodReceiver? ["querySelectorAll"] with
        | some r => r.node.isIdentifier "document" && e.isGlobal "document"
        | none => false

end Cursor

/-- A sweep over the nodes of one kind. -/
def Sweep.ofKind (s : Symbol) (f : Cursor → Check (Option Node)) : Sweep where
  isCandidate c := c.is s
  replacement _ c := f c

namespace Rules

/-- `Math.pow(a, b)` is `a ** b`. -/
def power : Rule := .ofSweeps "math-pow-to-exponentiation" "legacy"
  "Math.pow(a, b) -> a ** b"
  [.ofKind .callExpression fun call => do
    match call.calledMember? with
    | none => return none
    | some (callee, name) =>
      if name != Text.ofString "pow" || call.node.isOptional
          || callee.node.isOptional then return none
      let isMath := match callee.child? .object with
        | some o => o.node.isIdentifier "Math"
        | none => false
      if !isMath || !call.isGlobal "Math" || call.hasSpread then return none
      match call.arguments with
      | [base, exponent] =>
        return some (Build.binary base.node "**" exponent.node)
      | _ => return none]

/-- `text.substr(start, length)` is `text.slice(start, end)`. -/
def substr : Rule := .ofSweeps "substr-to-slice" "legacy"
  "str.substr(start[, length]) -> str.slice(start[, end])"
  [.ofKind .callExpression fun call => do
    match call.methodReceiver? ["substr"] with
    | none => return none
    | some receiver =>
      if !receiver.isString || call.hasSpread then return none
      match call.arguments with
      | [] => return some (Build.methodCall receiver.node "slice" [])
      | [start] => return some (Build.methodCall receiver.node "slice" [start.node])
      | [start, length] =>
        let first ← start.integerValue
        let count ← length.integerValue
        match first, count with
        | some a, some n =>
          if a < 0 || n < 0 then return none
          return some (Build.methodCall receiver.node "slice"
            [Build.number (← writeNumber a), Build.number (← writeNumber (a + n))])
        | _, _ => return none
      | _ => return none]

/-- A comparison of `indexOf` that tests for presence. -/
def includes : Rule := .ofSweeps "index-of-to-includes" "legacy"
  "x.indexOf(y) !== -1 -> x.includes(y)"
  [.ofKind .binaryExpression fun c => do
    match ← c.presenceCheck fun d => return d.isIndexOfCall with
    | none => return none
    | some (call, negated) =>
      match (call.inner? .function).bind (·.child? .object) with
      | none => return none
      | some receiver =>
        return some (Build.negatedIf negated
          (Build.methodCall receiver.node "includes" (call.arguments.map (·.node))))]

/-- `text.indexOf(start) === 0` asks how the text starts. -/
def startsWithIndex : Rule := .ofSweeps "index-of-to-starts-with" "legacy"
  "str.indexOf(x) === 0 -> str.startsWith(x)"
  [.ofKind .binaryExpression fun c => do
    match ← c.equalityCheck fun d => return d.isStringIndexOfCall with
    | none => return none
    | some (call, other, negated) =>
      if (← other.integerValue) != some 0 then return none
      match call.methodReceiver? ["indexOf"] with
      | none => return none
      | some receiver =>
        return some (Build.negatedIf negated
          (Build.methodCall receiver.node "startsWith" (call.arguments.map (·.node))))]

/-- `text.substring(0, start.length) === start` asks how the text
starts. -/
def startsWithPart : Rule := .ofSweeps "substring-to-starts-with" "legacy"
  "str.substring(0, x.length) === x -> str.startsWith(x)"
  [.ofKind .binaryExpression fun c => do
    match ← c.equalityCheck Cursor.isStartCall with
    | none => return none
    | some (call, start, negated) =>
      match call.arguments, call.methodReceiver? ["substring"] with
      | [_, finish], some receiver =>
        if !(← finish.isLengthOf start) then return none
        return some (Build.negatedIf negated
          (Build.methodCall receiver.node "startsWith" [start.node]))
      | _, _ => return none]

/-- `Array.from(iterable)` spreads. -/
def arrayFrom : Rule := .ofSweeps "array-from-to-spread" "legacy"
  "Array.from(iterable) -> [...iterable]"
  [.ofKind .callExpression fun call => do
    match call.methodReceiver? ["from"], call.arguments with
    | some receiver, [arg] =>
      if !receiver.node.isIdentifier "Array" || !call.isGlobal "Array" then return none
      if call.hasSpread || !arg.isIterable then return none
      return some (Build.array [Build.spread arg.node])
    | _, _ => return none]

-- =========================================================== directives

/-- The statement is a directive: a string and nothing else. -/
def isDirective (n : Node) : Bool :=
  n.is .expressionStatement
    && match n.operands with
      | [e] => e.is .string
      | _ => false

/-- The statement is the directive `"use strict"`. -/
def isUseStrict (n : Node) : Check Bool :=
  if !isDirective n then .ok false
  else match n.operands with
    | [e] => do return (← e.stringValue) == some (Text.ofString "use strict")
    | _ => .ok false

/-- The program is a module. -/
def isModule (n : Node) : Bool :=
  n.children.any (·.isAny [.importStatement, .exportStatement])

/-- The workspace without a statement of the program, whose lead goes to
the statement behind it. -/
def dropStatement (w : Workspace) (n : Node) : Workspace :=
  match n.id with
  | none => w
  | some i =>
    { w with
      program := { w.program with children := Node.dropHandingLead i w.program.children }
      loose := n :: w.loose }

/-- Drops the directives among the first statements. Comments and other
directives are passed over; anything else ends the search. -/
def dropUseStrict : List Nat → Bool → Workspace → RuleOutcome
  | [], changed, w => (w, .ok changed)
  | i :: rest, changed, w =>
    match w.program.children.find? (·.id == some i) with
    | none => dropUseStrict rest changed w
    | some n =>
      if n.isAny [.comment, .hashBangLine] then dropUseStrict rest changed w
      else match isUseStrict n with
        | .error f => (w, .error f)
        | .ok true => dropUseStrict rest true (dropStatement w n)
        | .ok false =>
          if isDirective n then dropUseStrict rest changed w
          else (w, .ok changed)

/-- A module without the directive among its first statements. -/
def relaxModule (w : Workspace) : RuleOutcome :=
  if !w.program.is .program || !isModule w.program then (w, .ok false)
  else dropUseStrict (w.program.children.filterMap (·.id)) false w

/-- Modules are strict without a directive. -/
def useStrict : Rule where
  name := "remove-use-strict"
  group := "legacy"
  description := "Drop \"use strict\" directives from ES modules"
  action := .onProgram relaxModule

end Rules

end Codemod
