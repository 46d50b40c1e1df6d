/-
Selectors, and wrappers that can be taken away.

Each rule asks whether every use of the wrapper stays within the allowed
names, and whether this occurrence of the factory call can be folded.
-/
import Codemod.Rule.Callback

namespace Codemod

/-- `.` and a plain name. A line feed may follow. -/
def isClassSelector (t : Text) : Bool :=
  match t.withoutFinalNewline with
  | dot :: name =>
    dot.is '.' && match (if name.head? == some (.scalar '-') then name.drop 1 else name) with
      | p :: ps => (p.test Char.isAlpha || p.is '_') && ps.all isNameByte
      | [] => false
  | [] => false

/-- A selector that jQuery hands on to the document unchanged. -/
def isDocumentQuery (t : Text) : Bool :=
  isNativeSelector t && !t.strip.isEmpty && !t.any (·.is '<') && !isIdSelector t

namespace Cursor

/-- The call initializes a variable. -/
def initializesVariable (c : Cursor) : Bool :=
  let holder := c.climb
  match holder.parent? with
  | some p => p.is .variableDeclarator && p.hasChild .value holder
  | none => false

/-- The factory call may be folded, its uses being within the allowed
names. -/
def mayFold (c : Cursor) (context : RuleContext) (allowed : List Text) :
    Check Bool := do
  if !(← c.isFoldable 1 allowed context.factoryNames) then return false
  return c.isChainFoldable allowed || c.initializesVariable

/-- The second parameter of a callback names the element wherever the
callback says `this`. -/
def namesThis (f element : Cursor) : Bool :=
  !f.isWritten element.code
    && f.thisReferences.all fun n =>
      match n.bindingScope? element.code with
      | some scope => scope.same f
      | none => false

/-- The parameters of a callback that may be called with element and
index instead of index and element; a callback that reads `this` has to
name the element. -/
def visitorParameters? (f : Cursor) : Option (List Cursor) :=
  let block := match f.child? .body with
    | some body => body.is .statementBlock
    | none => false
  if !f.isAny [.functionExpression, .functionWord, .arrowFunction] || !block then none
  else match f.simpleParameters? with
    | none => none
    | some params =>
      if !(params.length == 0 || params.length == 2) || f.mayReturnFalse then none
      else if f.is .arrowFunction then some params
      else if f.usesArguments then none
      else if f.thisReferences.isEmpty then some params
      else match params with
        | [_, element] => if f.namesThis element then some params else none
        | _ => none

end Cursor

/-- A sweep over the calls of the factory. The test is given the call
and its argument. -/
def Sweep.ofFactoryCalls
    (f : RuleContext → Cursor → Cursor → Check (Option Node)) : Sweep where
  isCandidate c := c.is .callExpression
  replacement context call := do
    if !(← call.isFactoryCall context.factoryNames) then return none
    match call.arguments.head? with
    | some arg => f context call arg
    | none => return none

namespace Rules

/-- `$("#id")` looks the element up. -/
def byId : Rule := .ofSweeps "id-selector-to-get-element-by-id" "jquery"
  "$(\"#id\").focus() -> document.getElementById(\"id\").focus()"
  [.ofFactoryCalls fun context call arg => do
    match ← arg.idSelector? with
    | none => return none
    | some id =>
      if !call.isGlobal "document" then return none
      if ← call.mayFold context context.transformableMembers then
        return some (elementById id)
      else return none]

/-- `document.querySelectorAll(selector)`. -/
def queryAll (selector : Node) : Node :=
  Build.methodCall (Build.identifier "document") "querySelectorAll" [selector]

/-- `$(".name")` lists the elements. -/
def byClass : Rule := .ofSweeps "class-selector-to-query-selector-all" "jquery"
  "$(\".cls\").length -> document.querySelectorAll(\".cls\").length"
  [.ofFactoryCalls fun context call arg => do
    match (← arg.node.stringValue).filter isClassSelector with
    | none => return none
    | some _ =>
      if !call.isGlobal "document" then return none
      if ← call.mayFold context nodeListMembers then
        return some (queryAll arg.node)
      else return none]

/-- The callback with element and index exchanged, and the element's
name in the place of `this`. -/
def visitor (callback f : Cursor) (params : List Cursor) : Node :=
  match params with
  | [index, element] =>
    let thisNodes := if f.is .arrowFunction then [] else f.thisReferences
    let named := thisNodes.foldl
      (fun whole n => whole.replacing n (Build.identifier element.code))
      callback.node
    named.exchanging index element
  | _ => callback.node

/-- `$(selector).each(visitor)` visits the elements in order. -/
def eachElement : Rule := .ofSweeps "each-to-node-list-for-each" "jquery"
  "$(\".item\").each(function (i, el) \x7b...\x7d) -> document.querySelectorAll(\".item\").forEach(...)"
  [.ofMethods ["each"] fun context call m _ args => do
    match args, m.inner? .object with
    | [callback], some factory =>
      if !call.isDiscarded || !callback.isFunctionValue then return none
      if !(← factory.isFactoryCall context.factoryNames) then return none
      match factory.arguments.head? with
      | none => return none
      | some selector =>
        match (← selector.node.stringValue).filter isDocumentQuery with
        | none => return none
        | some _ =>
          if !call.isGlobal "document" then return none
          if !(← factory.isFoldable 1 defaultTransformableMembers
              context.factoryNames) then return none
          let f := callback.unparen
          match f.visitorParameters? with
          | none => return none
          | some params =>
            return some (Build.methodCall (queryAll selector.node) "forEach"
              [visitor callback f params])
    | _, _ => return none]

/-- A wrapper whose whole chain is allowed gives way to its element. -/
def unwrapElement : Rule := .ofSweeps "unwrap-element-chains" "jquery"
  "$(el).focus() -> el.focus(), when every chained member is allow-listed"
  [.ofFactoryCalls fun context call arg => do
    if !arg.isElement then return none
    if !call.isChainFoldable context.transformableMembers then return none
    if !(← call.isFoldable 1 defaultTransformableMembers context.factoryNames) then
      return none
    call.wrapperTarget? context.factoryNames]

end Rules

end Codemod
