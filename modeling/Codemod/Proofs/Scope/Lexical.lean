/-
The scoping rules of the language.

A name means what the nearest enclosing construct that binds it says.
Which names a construct binds is collected from the construct inwards:
`var` from everything below it up to nested functions and static blocks
(`varsOf`), the declarations of a block up to nested scopes (`letsOf`),
parameters, handler parameters, loop heads, imports and the names that
function and class expressions have for themselves. Not every part of a
function sees all of its names: the body sees them all, the parameters
see the parameters, a computed key sees none (`namesFor`).

`lexical?` walks outwards through these constructs. The analysis asks the
question from the other end, by attributing every declaration of the
file to a scope; `hiddenNames` and `strayNames` name the bindings of a
construct that get lost or misplaced on that way, and `isReadAright`
tells whether a name is met by one of them before it is bound.
-/
import Codemod.Analysis.Scope

namespace Codemod

/-- A `var` is not carried out past the node. -/
def Node.holdsVars (n : Node) : Bool :=
  n.is .program || n.isFunction || n.is .classStaticBlock

/-- The function or program, to which the analysis carries a `var`. -/
def Node.isVarScope (n : Node) : Bool := n.is .program || n.isFunction

/-- A declaration of a block is not carried out past the node. -/
def Node.holdsLets (n : Node) : Bool :=
  n.isVarScope || n.is .statementBlock || n.isAny blockScopeSymbols

namespace Cursor

-- ================================================= what a node introduces

/-- The names of the declarators of a declaration. -/
def declaratorNames (c : Cursor) : List Cursor :=
  (c.children.filter (·.is .variableDeclarator)).flatMap fun d =>
    match d.child? .name with
    | none => []
    | some target => target.boundIdentifiers

/-- The names in the head of a loop over keys or values. -/
def loopNames (c : Cursor) : List Cursor :=
  match c.child? .left with
  | none => []
  | some left => left.boundIdentifiers

/-- The word that declares the names in the head of a loop. -/
def loopWord? (c : Cursor) : Option Text := (c.child? .kind).map code

/-- The names that a node introduces with `var`. -/
def varNames (c : Cursor) : List Cursor :=
  if c.is .variableDeclaration then c.declaratorNames
  else if c.is .forInStatement && c.loopWord? == some (Text.ofString "var") then
    c.loopNames
  else []

/-- The names that a declaration introduces into the block around it. -/
def letNames (c : Cursor) : List Cursor :=
  if c.is .lexicalDeclaration then c.declaratorNames
  else if c.isAny [.functionDeclaration, .generatorFunctionDeclaration,
      .classDeclaration] then (c.child? .name).toList
  else []

/-- The name that a function expression has for itself. -/
def ownNames (c : Cursor) : List Cursor :=
  if c.isAny [.functionExpression, .functionWord, .generatorFunction] then
    (c.child? .name).toList
  else []

/-- The names of the parameters. -/
def parameterNames (c : Cursor) : List Cursor :=
  c.parameters.flatMap boundIdentifiers

/-- The names that a handler gives what it catches. -/
def handlerNames (c : Cursor) : List Cursor :=
  match c.child? .parameter with
  | none => []
  | some p => p.boundIdentifiers

/-- The names that a loop declares for itself. -/
def loopLetNames (c : Cursor) : List Cursor :=
  match c.loopWord? with
  | none => []
  | some w => if w == Text.ofString "var" then [] else c.loopNames

-- ================================================ what a construct binds

/-- The names declared with `var` that belong to the construct. -/
def varsOf (c : Cursor) : List Cursor :=
  (c.walkBelowUntil Node.holdsVars).flatMap varNames

/-- The nodes of a scope without those of nested scopes. The block that
is the body of a function is part of the function. -/
def ownPart (c : Cursor) : List Cursor :=
  if c.isFunction then
    c.children.flatMap fun d =>
      d :: if d.is .statementBlock || !d.node.holdsLets then
          d.walkBelowUntil Node.holdsLets
        else []
  else c.walkBelowUntil Node.holdsLets

/-- The names declared directly in the scope. -/
def letsOf (c : Cursor) : List Cursor := c.ownPart.flatMap letNames

/-- The names imported into the file. -/
def importsOf (c : Cursor) : List Cursor :=
  if c.above.isEmpty then
    (c.walk.filter (·.is .importStatement)).flatMap importedIdentifiers
  else []

/-- The block is the body of a function. -/
def isFunctionBody (c : Cursor) : Bool :=
  match c.parent? with
  | some p => p.isFunction
  | none => false

/-- The names that a construct binds for what stands in one of its
children. -/
def namesFor (c : Cursor) (part : Node) : List Cursor :=
  if c.is .program then c.importsOf ++ (c.varsOf ++ c.letsOf)
  else if c.isFunction then
    match part.role with
    | some .body => c.ownNames ++ c.parameterNames ++ (c.varsOf ++ c.letsOf)
    | some .parameters => c.ownNames ++ c.parameterNames
    | some .parameter => c.ownNames ++ c.parameterNames
    | _ => []
  else if c.is .classStaticBlock then c.varsOf
  else if c.is .classExpr then (c.child? .name).toList
  else if c.is .statementBlock then if c.isFunctionBody then [] else c.letsOf
  else if c.is .catchClause then c.handlerNames ++ c.letsOf
  else if c.is .forInStatement then c.loopLetNames ++ c.letsOf
  else if c.isAny blockScopeSymbols then c.letsOf
  else []

/-- The nearest of the constructs around a node that binds the name, and
the identifiers that declare it there. -/
def lexicalIn (name : Text) :
    Node → List (Node × Nat) → Option (Cursor × List Cursor)
  | _, [] => none
  | n, (p, _) :: up =>
    match (namesFor ⟨p, up⟩ n).filter (·.code == name) with
    | [] => lexicalIn name p up
    | found => some (⟨p, up⟩, found)

/-- What the language says a name means here: the construct that binds
it and the identifiers that declare it there. -/
def lexical? (c : Cursor) (name : Text) : Option (Cursor × List Cursor) :=
  lexicalIn name c.node c.above

-- ======================================= where the analysis goes astray

/-- The names that a construct binds and the analysis does not see: the
own name of a class expression and the `var` of a static block. -/
def hiddenNames (c : Cursor) : List Cursor :=
  if c.is .classStaticBlock then c.varsOf
  else if c.is .classExpr then (c.child? .name).toList
  else []

/-- The names declared with `var` in static blocks below, which the
analysis carries out of them. -/
def strayVars (c : Cursor) : List Cursor :=
  ((c.walkBelowUntil Node.isVarScope).filter (·.is .classStaticBlock)).flatMap
    fun b => (b.walkBelowUntil Node.isVarScope).flatMap varNames

/-- The names that the analysis gives a function or the program,
whichever child they are looked up from. -/
def carriedNames (c : Cursor) : List Cursor :=
  if c.is .program then c.strayVars
  else if c.isFunction then
    c.ownNames ++ c.parameterNames ++ (c.strayVars ++ (c.varsOf ++ c.letsOf))
  else []

/-- The names among these that the construct does not bind for what
stands in the given child. -/
def strayNames (c : Cursor) (part : Node) : List Cursor :=
  c.carriedNames.filter fun x => !(c.namesFor part).any (·.same x)

/-- The analysis goes wrong about the name at this construct. -/
def misreads (c : Cursor) (part : Node) (name : Text) : Bool :=
  (c.hiddenNames ++ c.strayNames part).any (·.code == name)

/-- No construct up to the one that binds the name is misread. -/
def readIn (name : Text) : Node → List (Node × Nat) → Bool
  | _, [] => true
  | n, (p, _) :: up =>
    !misreads ⟨p, up⟩ n name
      && ((namesFor ⟨p, up⟩ n).any (·.code == name) || readIn name p up)

/-- On the way out to its binding the name is not misread. -/
def isReadAright (c : Cursor) (name : Text) : Bool := readIn name c.node c.above

end Cursor

end Codemod
