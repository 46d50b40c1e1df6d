/-
The utilities of the factory for arrays and strings.

Native array methods skip holes where jQuery visits every index, so the
array must be free of them as far as the source shows.
-/
import Codemod.Analysis.Comparison
import Codemod.Rule.Callback

namespace Codemod

/-- The operators that may pass on one of their operands. -/
def shortCircuitOperators : List String := ["&&", "||", "??"]

/-- The unary operators whose result is never null or an array. -/
def scalarOperators : List String := ["!", "-", "+", "~", "typeof"]

namespace Cursor

/-- The operator of an expression is one of those given. -/
def hasOperator (c : Cursor) (ops : List String) : Bool :=
  match c.child? .operator with
  | some o => o.code.isOneOf ops
  | none => false

/-- The expression never yields null, undefined or an array, within
`fuel` operands. -/
def isScalarWithin : Nat → Cursor → Bool
  | 0, _ => false
  | fuel + 1, c =>
    let e := c.unparen
    let both := fun (a b : Option Cursor) =>
      match a, b with
      | some x, some y => isScalarWithin fuel x && isScalarWithin fuel y
      | _, _ => false
    if e.isAny [.number, .string, .templateString, .trueLit, .falseLit,
        .updateExpression] then true
    else if e.is .binaryExpression then
      if e.hasOperator shortCircuitOperators then
        both (e.child? .left) (e.child? .right)
      else true
    else if e.is .unaryExpression then e.hasOperator scalarOperators
    else if e.is .ternaryExpression then
      both (e.child? .consequence) (e.child? .alternative)
    else e.isString

/-- The expression never yields null, undefined or an array. -/
def isScalar (c : Cursor) : Bool := c.isScalarWithin c.node.size

/-- The function always returns something that is neither null,
undefined nor an array: its last statement returns. -/
def returnsScalar (c : Cursor) : Bool :=
  match c.child? .body with
  | none => false
  | some body =>
    if !body.is .statementBlock then body.isScalar
    else match body.operands.getLast? with
      | none => false
      | some last =>
        last.is .returnStatement && c.returnValues.all fun
          | some v => v.isScalar
          | none => false

/-- The callback's value and its `this` would be ignored. -/
def isPlainVisitor (c : Cursor) : Bool :=
  (match c.child? .body with
    | some body => body.is .statementBlock
    | none => false)
  && !c.mayReturnFalse && (c.is .arrowFunction || !c.usesThis)

/-- The callback takes at most the two parameters that are passed, and
does not look at further arguments. -/
def takesAtMostTwo (c : Cursor) : Bool :=
  (match c.simpleParameters? with
    | some ps => ps.length ≤ 2
    | none => false)
  && (c.is .arrowFunction || !c.usesArguments)

/-- An `inArray` call of the factory, of a literal in an array. -/
def isInArrayCall (names : List Text) (c : Cursor) : Check Bool := do
  if !c.is .callExpression || c.node.isOptional then return false
  match c.inner? .function with
  | none => return false
  | some callee =>
    if callee.node.propertyName? != some (Text.ofString "inArray")
        || callee.node.isOptional then return false
    match callee.child? .object with
    | none => return false
    | some o =>
      if !(← o.isFactoryIdentifier names) then return false
      match c.arguments with
      | [value, array] => return value.isPrimitive && array.isArray true
      | _ => return false

end Cursor

namespace Rules

/-- `$.each(array, visitor)` visits the elements in order. -/
def each : Rule := .ofSweeps "each-to-for-each" "jquery"
  "$.each(arr, function (i, v) \x7b...\x7d) -> arr.forEach(function (v, i) \x7b...\x7d)"
  [.ofStatics ["each"] fun _ call args => do
    match args with
    | [array, callback] =>
      if !call.isDiscarded || !array.isArray true || !callback.isFunctionValue then
        return none
      let f := callback.unparen
      if !f.isPlainVisitor then return none
      match f.simpleParameters? with
      | some [] =>
        return some (Build.methodCall array.node "forEach" [callback.node])
      | some [index, value] =>
        return some (Build.methodCall array.node "forEach"
          [callback.node.exchanging index value])
      | _ => return none
    | _ => return none]

/-- `$.grep(array, test)` filters. -/
def grep : Rule := .ofSweeps "grep-to-filter" "jquery"
  "$.grep(arr, fn) -> arr.filter(fn)"
  [.ofStatics ["grep"] fun _ _ args => do
    match args with
    | [array, callback] =>
      if !array.isArray true || !callback.isFunctionValue then return none
      if !callback.unparen.takesAtMostTwo then return none
      return some (Build.methodCall array.node "filter" [callback.node])
    | _ => return none]

/-- `$.map(array, f)` maps, where `f` returns single values. -/
def map : Rule := .ofSweeps "map-to-array-map" "jquery"
  "$.map(arr, fn) -> arr.map(fn)"
  [.ofStatics ["map"] fun _ _ args => do
    match args with
    | [array, callback] =>
      if !array.isArray true || !callback.isFunctionValue then return none
      let f := callback.unparen
      if !f.takesAtMostTwo then return none
      if f.is .generatorFunction || !f.returnsScalar then return none
      return some (Build.methodCall array.node "map" [callback.node])
    | _ => return none]

/-- `$.trim(text)` of a string. -/
def trim : Rule := .ofSweeps "trim-to-string-trim" "jquery"
  "$.trim(str) -> str.trim()"
  [.ofStatics ["trim"] fun _ _ args => do
    match args with
    | [text] =>
      if !text.isString then return none
      return some (Build.methodCall text.node "trim" [])
    | _ => return none]

/-- A comparison of `$.inArray(value, array)` that tests for
presence. -/
def inArray : Rule := .ofSweeps "in-array-to-includes" "jquery"
  "$.inArray(v, arr) !== -1 -> arr.includes(v)"
  [{ isCandidate := fun c => c.is .binaryExpression
     replacement := fun context c => do
       match ← c.presenceCheck (Cursor.isInArrayCall context.factoryNames) with
       | none => return none
       | some (call, negated) =>
         match call.arguments with
         | [value, array] =>
           return some (Build.negatedIf negated
             (Build.methodCall array.node "includes" [value.node]))
         | _ => return none }]

end Rules

end Codemod
