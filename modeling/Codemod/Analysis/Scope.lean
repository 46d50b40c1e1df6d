/-
Lexical scope in a single source file.

Every question is answered from the tree as it stands: the tree changes
between questions, so no table of declarations outlives one. A name is
bound by the declarations of the nearest enclosing scope that declares
it; `var` belongs to the nearest function or to the program, every other
declaration to the construct it stands in.
-/
import Codemod.Tree.Expression

namespace Codemod

/-- How a name is introduced. -/
inductive BindingKind where
  | var
  | letVar
  | constVar
  | function
  | classLike
  | param
  | catch
  | importName
  /-- A declaration under a word that is none of the language. -/
  | other (word : Text)
deriving DecidableEq

namespace BindingKind

/-- The kind a declaring word gives. -/
def ofWord (t : Text) : BindingKind :=
  if t == Text.ofString "var" then .var
  else if t == Text.ofString "let" then .letVar
  else if t == Text.ofString "const" then .constVar
  else .other t

/-- The spelling of a kind. -/
def spelling : BindingKind → Text
  | .var => "var"
  | .letVar => "let"
  | .constVar => "const"
  | .function => "function"
  | .classLike => "class"
  | .param => "param"
  | .catch => "catch"
  | .importName => "import"
  | .other t => t

/-- The kinds of declaration that may carry an initializer. -/
def isVariable : BindingKind → Bool
  | .var => true
  | .letVar => true
  | .constVar => true
  | _ => false

end BindingKind

/-- One binding introduced somewhere in the file. -/
structure Declaration where
  /-- The name it binds. -/
  name : Text
  /-- How it is introduced. -/
  kind : BindingKind
  /-- The node that spells the name. -/
  identifier : Cursor
  /-- The scope it belongs to. -/
  scope : Option Cursor
  /-- The construct that declares it. -/
  declarator : Option Cursor
  /-- Its initializer. -/
  init : Option Cursor
  /-- The name is a part of a pattern. -/
  destructured : Bool

-- =============================================================== scopes

/-- The kinds of node that are functions. -/
def functionSymbols : List Symbol :=
  [.functionDeclaration, .functionExpression, .functionWord,
    .generatorFunction, .generatorFunctionDeclaration, .arrowFunction,
    .methodDefinition]

/-- The kinds of node other than blocks that open a block scope. -/
def blockScopeSymbols : List Symbol :=
  [.forStatement, .forInStatement, .catchClause, .classBody, .switchBody]

/-- The kinds of node that make up patterns. -/
def patternSymbols : List Symbol :=
  [.objectPattern, .arrayPattern, .assignmentPattern,
    .objectAssignmentPattern, .restPattern, .pairPattern]

/-- The node is a function. -/
def Node.isFunction (n : Node) : Bool := n.isAny functionSymbols

/-- The node is a pattern or a part of one. -/
def Node.isPattern (n : Node) : Bool := n.isAny patternSymbols

namespace Cursor

/-- The node is a function. -/
def isFunction (c : Cursor) : Bool := c.node.isFunction

/-- The node opens a scope; a function and its body share one. -/
def isScope (c : Cursor) : Bool :=
  if c.is .program || c.isFunction then true
  else if c.is .statementBlock then
    match c.parent? with
    | some p => !p.isFunction
    | none => true
  else c.isAny blockScopeSymbols

/-- The nearest scope strictly above. -/
def enclosingScope? (c : Cursor) : Option Cursor := c.ancestors.find? isScope

/-- The nearest function or program strictly above. -/
def functionScope? (c : Cursor) : Option Cursor :=
  c.ancestors.find? fun a => a.is .program || a.isFunction

/-- The function that determines `this`. -/
def thisScope? (c : Cursor) : Option Cursor :=
  c.ancestors.find? fun a =>
    a.is .program || (a.isFunction && !a.is .arrowFunction)

/-- The scopes around a node outwards, itself first when it is one. -/
def scopeChain (c : Cursor) : List Cursor :=
  (c :: c.ancestors).filter isScope

-- ============================================================= patterns

/-- The children of a pattern that may bind names: no keys and no
default values. -/
def bindsIn (parent child : Node) : Bool :=
  child.isOperand
    && !(parent.is .pairPattern && child.role == some .key)
    && !(parent.isAny [.assignmentPattern, .objectAssignmentPattern]
      && child.role == some .right)

/-- The node hands its part in an assignment on to its children. -/
def opensPattern (n : Node) : Bool :=
  n.isPattern || (n.is .parenthesizedExpression && n.operands.length == 1)

mutual

/-- The names bound by a pattern in given places. -/
def boundIn (above : List (Node × Nat)) : Node → List Cursor
  | ⟨i, k, b, r, l, t, cs, z⟩ =>
    let n : Node := ⟨i, k, b, r, l, t, cs, z⟩
    if n.isAny [.identifier, .shorthandPropertyIdentifierPattern] then [⟨n, above⟩]
    else if opensPattern n then boundInAll n above 0 cs
    else []

/-- The names bound by neighbouring parts of a pattern. -/
def boundInAll (parent : Node) (above : List (Node × Nat)) (i : Nat) :
    List Node → List Cursor
  | [] => []
  | c :: cs =>
    (if bindsIn parent c then boundIn ((parent, i) :: above) c else [])
      ++ boundInAll parent above (i + 1) cs

end

/-- The identifiers that a binding or assignment target binds. -/
def boundIdentifiers (c : Cursor) : List Cursor := boundIn c.above c.node

/-- The parameters of a function. -/
def parameters (c : Cursor) : List Cursor :=
  match c.child? .parameter with
  | some p => [p]
  | none =>
    match c.child? .parameters with
    | some ps => ps.operands
    | none => []

-- ========================================================= declarations

/-- The declarations of a variable declaration. -/
def variablesDeclared (c : Cursor) : List Declaration :=
  let isVar := c.is .variableDeclaration
  let kind :=
    if isVar then BindingKind.var
    else match (c.child? .kind).orElse fun _ => c.children.head? with
      | some k => BindingKind.ofWord k.code
      | none => .other []
  let scope := if isVar then c.functionScope? else c.enclosingScope?
  if scope.isNone then []
  else (c.children.filter (·.is .variableDeclarator)).flatMap fun d =>
    match d.child? .name with
    | none => []
    | some target =>
      target.boundIdentifiers.map fun ident =>
        { name := ident.code, kind := kind, identifier := ident, scope := scope,
          declarator := some d, init := d.child? .value,
          destructured := target.node.isPattern }

/-- The declaration of a function or class by its own name. -/
def nameDeclared (c : Cursor) (kind : BindingKind) (scope : Option Cursor) :
    List Declaration :=
  match c.child? .name, scope with
  | some name, some s =>
    [{ name := name.code, kind := kind, identifier := name, scope := some s,
       declarator := some c, init := none, destructured := false }]
  | _, _ => []

/-- The declarations of a parameter in a scope. -/
def parameterDeclared (param scope : Cursor) (kind : BindingKind) :
    List Declaration :=
  param.boundIdentifiers.map fun ident =>
    { name := ident.code, kind := kind, identifier := ident, scope := some scope,
      declarator := some param, init := none,
      destructured := !param.is .identifier }

/-- The declarations in the head of a loop over keys or values. -/
def loopDeclared (c : Cursor) : List Declaration :=
  match c.child? .kind, c.child? .left with
  | some k, some left =>
    let kind := BindingKind.ofWord k.code
    let scope := if kind == .var then c.functionScope? else some c
    left.boundIdentifiers.map fun ident =>
      { name := ident.code, kind := kind, identifier := ident, scope := scope,
        declarator := some c, init := none, destructured := true }
  | _, _ => []

/-- The local names of an import. -/
def importedIdentifiers (c : Cursor) : List Cursor :=
  c.walk.flatMap fun sub =>
    if sub.isAny [.importClause, .namespaceImport] then
      sub.children.filter (·.is .identifier)
    else if sub.is .importSpecifier then
      match (sub.child? .alias).orElse fun _ => sub.child? .name with
      | some name => if name.is .identifier then [name] else []
      | none => []
    else []

/-- The declarations of an import. -/
def importDeclared (c : Cursor) : List Declaration :=
  c.importedIdentifiers.map fun ident =>
    { name := ident.code, kind := .importName, identifier := ident,
      scope := some c.root, declarator := some c, init := none,
      destructured := false }

/-- What a node itself declares, apart from parameters and the like. -/
def declaredBy (c : Cursor) : List Declaration :=
  if c.isAny [.variableDeclaration, .lexicalDeclaration] then c.variablesDeclared
  else if c.isAny [.functionDeclaration, .generatorFunctionDeclaration] then
    c.nameDeclared .function c.enclosingScope?
  else if c.is .classDeclaration then c.nameDeclared .classLike c.enclosingScope?
  else if c.isAny [.functionExpression, .functionWord, .generatorFunction] then
    c.nameDeclared .function (some c)
  else []

/-- What the head of a function, handler, loop or import declares. -/
def declaredInHead (c : Cursor) : List Declaration :=
  if c.isFunction then
    c.parameters.flatMap fun p => parameterDeclared p c .param
  else if c.is .catchClause then
    match c.child? .parameter with
    | some p => parameterDeclared p c .catch
    | none => []
  else if c.is .forInStatement then c.loopDeclared
  else if c.is .importStatement then c.importDeclared
  else []

/-- Every declaration of the subtree, in source order. -/
def declarations (c : Cursor) : List Declaration :=
  c.walk.flatMap fun d => d.declaredBy ++ d.declaredInHead

-- =============================================================== writes

/-- The target of an assignment, update or loop head without a
declaration. -/
def writeTarget? (c : Cursor) : Option Cursor :=
  if c.isAny [.assignmentExpression, .augmentedAssignmentExpression] then
    c.inner? .left
  else if c.is .updateExpression then c.inner? .argument
  else if c.is .forInStatement && (c.child? .kind).isNone then c.inner? .left
  else none

/-- The identifiers that a node assigns to. -/
def writtenBy (c : Cursor) : List Cursor :=
  match c.writeTarget? with
  | none => []
  | some t =>
    if t.is .identifier then [t]
    else if t.node.isPattern then t.boundIdentifiers
    else []

/-- The identifiers of the subtree that are assigned to. -/
def writes (c : Cursor) : List Cursor := c.walk.flatMap writtenBy

/-- Something in the subtree assigns to the name. -/
def isWritten (c : Cursor) (name : Text) : Bool :=
  c.writes.any (·.code == name)

-- =========================================================== resolution

/-- The declarations of one scope among those given. -/
def inScope (ds : List Declaration) (scope : Cursor) : List Declaration :=
  ds.filter fun d =>
    match d.scope with
    | some s => s.same scope
    | none => false

/-- The first of the scopes that holds one of the declarations. -/
def lookUp (ds : List Declaration) :
    List Cursor → Option (Cursor × List Declaration)
  | [] => none
  | s :: ss =>
    match inScope ds s with
    | [] => lookUp ds ss
    | found => some (s, found)

/-- The declarations of a name in the whole tree. -/
def declarationsOf (c : Cursor) (name : Text) : List Declaration :=
  c.root.declarations.filter (·.name == name)

/-- The scope that binds a name here and its declarations there; none
for a name the file does not declare. -/
def binding? (c : Cursor) (name : Text) : Option (Cursor × List Declaration) :=
  lookUp (c.declarationsOf name) c.scopeChain

/-- The scope that binds a name here. -/
def bindingScope? (c : Cursor) (name : Text) : Option Cursor :=
  (c.binding? name).map (·.1)

/-- The same scope, or none both times. -/
def sameScope : Option Cursor → Option Cursor → Bool
  | none, none => true
  | some a, some b => a.same b
  | _, _ => false

/-- The uses of a name under a scope that are bound there. -/
def references (scope : Cursor) (name : Text) : List Cursor :=
  let ds := scope.declarationsOf name
  let declared := (inScope ds scope).map (·.identifier)
  scope.walk.filter fun n =>
    n.isAny [.identifier, .shorthandPropertyIdentifier]
      && n.code == name && !declared.any (·.same n)
      && match lookUp ds n.scopeChain with
        | some (s, _) => s.same scope
        | none => false

/-- `with` or a direct `eval` can change what names mean in the
subtree. -/
def hasDynamicScope (c : Cursor) : Bool :=
  c.walk.any fun n =>
    n.is .withStatement
      || (n.is .callExpression
        && match n.child? .function with
          | some f => f.is .identifier && f.code == Text.ofString "eval"
          | none => false)

/-- The node stands inside a `with` statement. -/
def inWith (c : Cursor) : Bool := c.ancestors.any (·.is .withStatement)

end Cursor

end Codemod
