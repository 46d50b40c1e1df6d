/-
Wrappers: which expressions denote a jQuery object.

An expression is a wrapper when it is a call of the factory with exactly
one argument, or a plain name whose only value is such a call. A factory
name counts only while it still means the factory: nothing in the file
may assign to it, and a declaration of it has to bring the factory in.
-/
import Codemod.Analysis.Alias

namespace Codemod

/-- Where the wrapper in an expression comes from. -/
inductive Provenance where
  /-- A factory call. -/
  | direct
  /-- A name bound to a factory call. -/
  | bound
  | unknown
deriving DecidableEq

/-- The names of the factory, unless others are configured. -/
def defaultFactoryNames : List Text := ["$", "jQuery"]

/-- The members that mean the same on a wrapper and on the element it
wraps. -/
def defaultTransformableMembers : List Text := ["focus", "blur", "remove"]

/-- The methods that have to be called without arguments, as the last
step, their result unused. -/
def noArgumentMembers : List String :=
  ["focus", "blur", "click", "remove", "submit", "reset"]

/-- The members that a wrapper and a list of nodes share. -/
def nodeListMembers : List Text := ["length"]

/-- The members that hold a collection rather than one element. -/
def collectionMembers : List String := [
  "children", "childNodes", "elements", "forms", "images", "links",
  "options", "rows", "cells", "length", "classList", "style", "dataset",
  "attributes"]

/-- The methods that return one element, or nothing. -/
def elementMethods : List String := [
  "getElementById", "querySelector", "closest", "createElement",
  "elementFromPoint", "cloneNode"]

/-- The names that never hold an element. -/
def notElements : List String := ["undefined", "NaN", "Infinity", "arguments"]

/-- The modules that export the factory. -/
def factoryModules : List String := ["jquery"]

namespace Cursor

-- ============================================================== factory

/-- The node's value as a string names a module of the factory. -/
def namesFactoryModule (c : Cursor) : Check Bool := do
  match ← c.node.stringValue with
  | some t => return t.isOneOf factoryModules
  | none => return false

/-- The initializer brings the factory in: `require("jquery")` or
`window.jQuery`. -/
def bringsFactory (init : Cursor) (names : List Text) : Check Bool :=
  let e := init.unparen
  let requires := match e.child? .function with
    | some f => f.node.isIdentifier "require"
    | none => false
  if e.is .callExpression && requires then
    match e.arguments with
    | [a] => a.namesFactoryModule
    | _ => .ok false
  else if e.is .memberExpression then
    match e.child? .object, e.node.propertyName? with
    | some o, some p => .ok (o.node.isIdentifier "window" && names.contains p)
    | _, _ => .ok false
  else .ok false

/-- The argument that an immediately invoked function receives for a
parameter. -/
def invokedArgument? (param : Cursor) : Option Cursor :=
  match param.parent? with
  | none => none
  | some params =>
    if !params.is .formalParameters then none
    else match params.operands.findIdx? (·.same param), params.parent? with
      | some i, some func =>
        match func.climb.parent? with
        | some call =>
          if !call.is .callExpression then none
          else match call.inner? .function with
            | some callee => if callee.same func then call.arguments[i]? else none
            | none => none
        | none => none
      | _, _ => none

/-- The name means the factory here. Parameters of immediately invoked
functions are followed outwards, at most `fuel` times. -/
def meansFactoryWithin (names : List Text) : Nat → Cursor → Text → Check Bool
  | 0, _, _ => .ok false
  | fuel + 1, c, name =>
    if c.inWith then .ok false
    else match c.binding? name with
      | none => .ok (!c.root.hasDynamicScope && !c.root.isWritten name)
      | some (scope, [d]) =>
        if scope.hasDynamicScope || scope.isWritten name then .ok false
        else match d.kind with
          | .importName =>
            match d.declarator.bind (·.child? .source) with
            | some source => source.namesFactoryModule
            | none => .ok false
          | .param =>
            let plain := match d.declarator with
              | some p => p.same d.identifier
              | none => false
            if !plain then .ok false
            else match d.identifier.invokedArgument? with
              | some a =>
                if a.is .identifier && names.contains a.code then
                  meansFactoryWithin names fuel a a.code
                else .ok false
              | none => .ok false
          | _ =>
            if d.kind.isVariable && !d.destructured then
              match d.init with
              | some init => init.bringsFactory names
              | none => .ok false
            else .ok false
      | some _ => .ok false

/-- The name still means the factory here. Each parameter followed
belongs to a function farther out, so the depth of the tree bounds the
search. -/
def meansFactory (c : Cursor) (names : List Text) (name : Text) : Check Bool :=
  meansFactoryWithin names (c.root.node.size + 1) c name

/-- The identifier of the factory, as in `$.each(…)`. -/
def isFactoryIdentifier (c : Cursor) (names : List Text) : Check Bool :=
  let e := c.unparen
  if e.is .identifier && names.contains e.code then e.meansFactory names e.code
  else .ok false

/-- A call of the factory with one plain argument. -/
def isFactoryCall (c : Cursor) (names : List Text) : Check Bool :=
  let e := c.unparen
  if !e.is .callExpression then .ok false
  else match e.child? .function with
    | none => .ok false
    | some f =>
      if !f.is .identifier || !names.contains f.code || e.node.isOptional then
        .ok false
      else match e.arguments with
        | [a] =>
          if a.is .spreadElement then .ok false else e.meansFactory names f.code
        | _ => .ok false

-- ======================================================= classification

/-- A name that starts with a dollar sign and belongs to the program is
taken for a global shared with other files. -/
def isSharedDollar (name : Text) (scope : Option Cursor) : Bool :=
  (match name with
    | p :: _ => p.is '$'
    | [] => false)
  && match scope with
    | some s => s.is .program
    | none => false

/-- Where the wrapper in an expression comes from, and the factory call
that made it. -/
def wrapperCall? (c : Cursor) (names : List Text) :
    Check (Option (Provenance × Cursor)) := do
  let e := c.unparen
  if ← e.isFactoryCall names then return some (.direct, e)
  if !e.is .identifier then return none
  let name := e.code
  match e.binding? name with
  | none => return none
  | some (scope, ds) =>
    if isSharedDollar name (some scope) then return none
    match e.resolve? name with
    | none => return none
    | some init =>
      if !(← init.isFactoryCall names) then return none
      match ds.head?.bind (·.declarator) with
      | some declarator =>
        if declarator.precedes e then return some (.bound, init.unparen)
        else return none
      | none => return none

/-- How the expression came to hold a wrapper. -/
def classify (c : Cursor) (names : List Text) : Check Provenance := do
  match ← c.wrapperCall? names with
  | some (p, _) => return p
  | none => return .unknown

/-- The expression denotes a wrapper. -/
def isWrapper (c : Cursor) (names : List Text) : Check Bool := do
  return (← c.classify names) != .unknown

/-- The argument of the factory call behind an expression. -/
def wrappedArgument? (c : Cursor) (names : List Text) :
    Check (Option Cursor) := do
  match ← c.wrapperCall? names with
  | some (_, call) => return call.arguments.head?
  | none => return none

/-- What a replacement may put in the place of a wrapper: the argument
itself for a factory call, a copy of it for a name, provided the
argument has the same value in both places. -/
def wrapperTarget? (c : Cursor) (names : List Text) : Check (Option Node) := do
  match ← c.wrapperCall? names with
  | none => return none
  | some (p, call) =>
    match call.arguments.head? with
    | none => return none
    | some a =>
      if p == .direct then return some a.node
      if ← a.isStableAt c.unparen then return some a.node.copy
      return none

-- ============================================================= elements

/-- The declaration is taken to hold an element: a parameter, or the
variable of a loop over values. -/
def holdsElement (d : Declaration) : Bool :=
  if d.kind == .param || d.kind == .catch then !d.destructured
  else match d.declarator with
    | some loop =>
      loop.is .forInStatement
        && (match loop.child? .operator with
          | some o => o.code == Text.ofString "of"
          | none => false)
        && (match loop.child? .left with
          | some l => l.same d.identifier
          | none => false)
    | none => false

/-- A wrapped argument denotes an element of the document rather than a
selector. Names are followed through their bindings, at most `fuel`
times. -/
def isElementWithin : Nat → Cursor → Bool
  | 0, _ => false
  | fuel + 1, c =>
    let e := c.unparen
    if e.is .thisExpr then true
    else if e.is .identifier then
      if e.code.isOneOf notElements then false
      else match e.resolve? e.code with
        | some init => isElementWithin fuel init
        | none =>
          match e.binding? e.code with
          | none => true
          | some (_, ds) => ds.all holdsElement
    else if e.is .memberExpression then
      match e.node.propertyName? with
      | some p => !p.isOneOf collectionMembers && !e.node.isOptional
      | none => false
    else if e.is .subscriptExpression then !e.node.isOptional
    else if e.is .callExpression then
      match e.inner? .function with
      | some callee =>
        callee.is .memberExpression
          && (match callee.node.propertyName? with
            | some p => p.isOneOf elementMethods
            | none => false)
          && !e.node.isOptional
      | none => false
    else false

/-- How many bindings are followed from a wrapped argument. -/
def elementDepth : Nat := 9

/-- A wrapped argument denotes an element of the document. -/
def isElement (c : Cursor) : Bool := isElementWithin elementDepth c

end Cursor

end Codemod
