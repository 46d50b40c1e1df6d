/-
What the rules for wrappers share: method calls, the element behind a
receiver, and selectors.
-/
import Codemod.Analysis.Evidence
import Codemod.Rule.Basic

namespace Codemod

-- ============================================================ selectors

/-- The text without a line feed at its end. -/
def Text.withoutFinalNewline (t : Text) : Text :=
  if t.getLast? == some (.scalar '\n') then t.dropLast else t

/-- One token: some points, none of them white space. A line feed may
follow. -/
def isSingleToken (t : Text) : Bool :=
  let u := t.withoutFinalNewline
  !u.isEmpty && u.all fun p => !p.isBlank

/-- A letter, digit or underscore of ASCII, or a hyphen. -/
def isNameByte (p : Point) : Bool := p.isAsciiWord || p.is '-'

/-- `#` and a plain name. A line feed may follow. -/
def isIdSelector (t : Text) : Bool :=
  match t.withoutFinalNewline with
  | h :: name => h.is '#' && !name.isEmpty && name.all isNameByte
  | [] => false

/-- The pseudo-classes that only jQuery knows. -/
def foreignPseudos : List String := [
  "visible", "hidden", "first", "last", "eq", "gt", "lt", "even", "odd",
  "contains", "has", "input", "button", "checkbox", "radio", "text",
  "password", "submit", "reset", "image", "file", "header", "animated",
  "parent", "selected"]

/-- The word starts the text and ends there. -/
def Text.startsWithWord (t word : Text) : Bool :=
  word.isPrefixOf t && match t.drop word.length with
    | p :: _ => !p.isWord
    | [] => true

/-- The selector uses a pseudo-class that only jQuery knows. -/
def hasForeignPseudo (t : Text) : Bool :=
  t.suffixes.any fun
    | p :: rest => p.is ':' && foreignPseudos.any fun w => Text.startsWithWord rest w
    | [] => false

/-- A selector that the document's own queries understand. -/
def isNativeSelector (t : Text) : Bool := !t.isEmpty && !hasForeignPseudo t

/-- The selector relates several elements. -/
def hasCombinator (t : Text) : Bool :=
  t.any fun p => p.isBlank || p.is '>' || p.is '+' || p.is '~' || p.is ','

namespace Cursor

/-- The value of a string literal that is one token. -/
def singleToken? (c : Cursor) : Check (Option Text) := do
  return (← c.node.stringValue).filter isSingleToken

/-- The id that a literal `"#id"` names. -/
def idSelector? (c : Cursor) : Check (Option Text) := do
  return ((← c.node.stringValue).filter isIdSelector).map (·.drop 1)

/-- The value of a string literal that is a native selector. -/
def nativeSelector? (c : Cursor) : Check (Option Text) := do
  return (← c.node.stringValue).filter isNativeSelector

-- ========================================================= method calls

/-- The member access that a call calls, and its name. -/
def calledMember? (c : Cursor) : Option (Cursor × Text) :=
  match c.inner? .function with
  | some m =>
    match m.node.propertyName? with
    | some name => some (m, name)
    | none => none
  | none => none

/-- A plain call of one of the named methods. -/
def isMethodCall (names : List String) (c : Cursor) : Bool :=
  c.is .callExpression
    && match c.calledMember? with
      | some (m, name) =>
        name.isOneOf names && !c.node.isOptional && !m.node.isOptional
      | none => false

/-- The call is a whole statement, so that its value is unused. -/
def isDiscarded (c : Cursor) : Bool := c.statement?.isSome

/-- The value is a function written out. -/
def isFunctionValue (c : Cursor) : Bool := c.unparen.node.isFunctionLiteral

end Cursor

/-- A sweep over the plain calls of the named methods. The test is given
the call, the member access, the method's name and the arguments. -/
def Sweep.ofMethods (names : List String)
    (f : RuleContext → Cursor → Cursor → Text → List Cursor → Check (Option Node)) :
    Sweep where
  isCandidate := Cursor.isMethodCall names
  replacement context c :=
    match c.calledMember? with
    | some (m, name) =>
      if c.hasSpread then .ok none else f context c m name c.arguments
    | none => .ok none

/-- A sweep over the plain calls of the named functions of the
factory. -/
def Sweep.ofStatics (names : List String)
    (f : RuleContext → Cursor → List Cursor → Check (Option Node)) : Sweep :=
  .ofMethods names fun context c m _ args => do
    match m.child? .object with
    | none => return none
    | some o =>
      if ← o.isFactoryIdentifier context.factoryNames then f context c args
      else return none

-- ============================================================= elements

/-- `document.getElementById("id")`. -/
def elementById (id : Text) : Node :=
  Build.methodCall (Build.identifier "document") "getElementById"
    [Build.string id]

/-- The element that a method call on a wrapper works on, to be put in
place of the wrapper. A selector by id is looked up where it stands. -/
def receiverTarget? (context : RuleContext) (m : Cursor) :
    Check (Option Node) := do
  let names := context.factoryNames
  match m.inner? .object with
  | none => return none
  | some receiver =>
    match ← receiver.wrapperCall? names with
    | none => return none
    | some (provenance, call) =>
      match call.arguments.head? with
      | none => return none
      | some arg =>
        let direct := provenance == .direct
        let id ← arg.idSelector?
        let usable :=
          if id.isSome then direct && receiver.isGlobal "document"
          else arg.isElement
        if !usable then return none
        if direct then
          if !(← receiver.isFoldable 1 defaultTransformableMembers names) then
            return none
        match id with
        | some i => return some (elementById i)
        | none => receiver.wrapperTarget? names

/-- The name of the factory that made the receiver, provided it means
the same factory at the member access. -/
def factoryNameFor? (context : RuleContext) (m : Cursor) :
    Check (Option Text) := do
  match m.inner? .object with
  | none => return none
  | some receiver =>
    match ← receiver.wrapperCall? context.factoryNames with
    | none => return none
    | some (_, call) =>
      match call.child? .function with
      | none => return none
      | some callee =>
        if !callee.is .identifier then return none
        let name := callee.code
        let agrees := call.same receiver
          || Cursor.sameScope (m.bindingScope? name) (call.bindingScope? name)
        return if agrees then some name else none

/-- `factory(expr)`. -/
def rewrap (factory : Text) (e : Node) : Node :=
  Build.call (Build.identifier factory) [e]

end Codemod
