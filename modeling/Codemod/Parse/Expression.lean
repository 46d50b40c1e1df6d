/-
Expressions, functions and classes.

Binary operators are read by precedence. An arrow function, once read,
takes no further operator or call: what follows it on the next line
starts a statement.
-/
import Codemod.Parse.Pattern

namespace Codemod.Parse

open Step

variable {src : List Char}

-- ============================================================ operators

/-- How tightly a binary operator binds, from 1 to 12. -/
def precedence? : String → Option Nat
  | "??" => some 1
  | "||" => some 2
  | "&&" => some 3
  | "|" => some 4
  | "^" => some 5
  | "&" => some 6
  | "==" | "!=" | "===" | "!==" => some 7
  | "<" | ">" | "<=" | ">=" | "instanceof" | "in" => some 8
  | "<<" | ">>" | ">>>" => some 9
  | "+" | "-" => some 10
  | "*" | "/" | "%" => some 11
  | "**" => some 12
  | _ => none

/-- The operators that assign and compute. -/
def compoundAssignments : List String := [
  "+=", "-=", "*=", "/=", "%=", "**=", "<<=", ">>=", ">>>=", "&=", "^=",
  "|=", "&&=", "||=", "??="]

/-- The operators in front of an operand. -/
def unaryOperators : List String :=
  ["!", "~", "+", "-", "typeof", "void", "delete"]

/-- The binary operator that comes next, and its precedence. -/
def nextOperator (noIn : Bool) : Step src (Option (String × Nat)) := do
  let l ← peek
  if !(l.shape == .word || l.shape == .mark) then return none
  if noIn && l.text == "in" then return none
  return (precedence? l.text).map (l.text, ·)

/-- Reads operands joined by operators of at least the given level. -/
def binary (go : Goal → Step src Unit) (level : Nat) (noIn : Bool) :
    Step src Unit := do
  let start ← mark
  go .unary
  go (.operators start level noIn)

/-- Reads further operators behind the operand at `start`. -/
def operators (go : Goal → Step src Unit) (start level : Nat) (noIn : Bool) :
    Step src Unit := do
  if ← lastIsAny [.arrowFunction] then return
  match ← nextOperator noIn with
  | none => return
  | some (op, p) =>
    if p < level then return
    role .left
    bare (some .operator)
    go (.binary (if op == "**" then p else p + 1) noIn)
    role .right
    close start .binaryExpression
    go (.operators start level noIn)

/-- Reads an operand with the operators around it. -/
def unary (go : Goal → Step src Unit) : Step src Unit := do
  let start ← mark
  if ← seesAny unaryOperators then
    bare (some .operator)
    go .unary
    role .argument
    close start .unaryExpression
  else if ← seesAny ["++", "--"] then
    bare (some .operator)
    go .unary
    role .argument
    close start .updateExpression
  else if ← tokenIf "await" then
    go .unary
    close start .awaitExpression
  else
    go (.access true)
    let followed := (← seesAny ["++", "--"]) && !(← gap).newline
    if followed && !(← lastIsAny [.arrowFunction]) then
      role .argument
      bare (some .operator)
      close start .updateExpression

/-- Reads a conditional expression. -/
def conditional (go : Goal → Step src Unit) (noIn : Bool) : Step src Unit := do
  let start ← mark
  go (.binary 1 noIn)
  if (← sees "?") && !(← lastIsAny [.arrowFunction]) then
    role .condition
    token "?"
    go (.assignment false)
    role .consequence
    token ":"
    go (.assignment noIn)
    role .alternative
    close start .ternaryExpression

/-- Reads a `yield` with its operand, if it has one. -/
def yielding (go : Goal → Step src Unit) (noIn : Bool) : Step src Unit := do
  let start ← mark
  token "yield"
  if ← tokenIf "*" then go (.assignment noIn)
  else
    let bareYield := (← endsHere)
      || (← seesAny [")", "]", "\x7d", ",", ";", ":", "in", "of"])
    if !bareYield then go (.assignment noIn)
  close start .yieldExpression

/-- Reads an expression without commas outside brackets. -/
def assignment (go : Goal → Step src Unit) (noIn : Bool) : Step src Unit := do
  if ← sees "yield" then yielding go noIn
  else
    let start ← mark
    conditional go noIn
    if (← sees "=") && (← lastIsAny (.object :: .array :: Node.simpleTargets)) then
      if ← lastIsAny [.object, .array] then retarget
      role .left
      token "="
      go (.assignment noIn)
      role .right
      close start .assignmentExpression
    else if (← seesAny compoundAssignments)
        && (← lastIsAny Node.simpleTargets) then
      role .left
      bare (some .operator)
      go (.assignment noIn)
      role .right
      close start .augmentedAssignmentExpression

/-- Reads an expression. -/
def expression (go : Goal → Step src Unit) (noIn : Bool) : Step src Unit := do
  let start ← mark
  go (.assignment noIn)
  if ← sees "," then
    go (.sequence start noIn)
    close start .sequenceExpression

/-- Reads further expressions behind commas. -/
def sequence (go : Goal → Step src Unit) (start : Nat) (noIn : Bool) :
    Step src Unit := do
  if ← tokenIf "," then
    go (.assignment noIn)
    go (.sequence start noIn)

-- ===================================================== members and calls

/-- Reads arguments in parentheses. -/
def arguments (go : Goal → Step src Unit) : Step src Unit := do
  let start ← mark
  token "("
  go (.elements false)
  token ")"
  close start .arguments

/-- Reads arguments, or array elements with their holes, up to a closing
bracket. -/
def elements (go : Goal → Step src Unit) (holes : Bool) : Step src Unit := do
  if ← seesAny [")", "]"] then return
  if holes && (← sees ",") then
    token ","
    go (.elements holes)
  else
    let start ← mark
    if ← tokenIf "..." then
      go (.assignment false)
      close start .spreadElement
    else go (.assignment false)
    if ← tokenIf "," then go (.elements holes)

/-- Reads the name behind a dot and closes the member expression. -/
def memberName (start : Nat) : Step src Unit := do
  let l ← peek
  match l.shape with
  | .word => leaf .propertyIdentifier (some .property)
  | .secret => leaf .privatePropertyIdentifier (some .property)
  | _ => failure
  close start .memberExpression

/-- Reads an index in brackets and closes the subscript expression. -/
def subscript (go : Goal → Step src Unit) (start : Nat) : Step src Unit := do
  token "["
  go (.expression false)
  role .index
  token "]"
  close start .subscriptExpression

/-- Reads arguments and closes the call. -/
def callArguments (go : Goal → Step src Unit) (start : Nat) : Step src Unit := do
  go .arguments
  role .arguments
  close start .callExpression

/-- Reads member accesses and calls of the expression at `start`. -/
def accesses (go : Goal → Step src Unit) (start : Nat) (calls : Bool) :
    Step src Unit := do
  if ← lastIsAny [.arrowFunction] then return
  let l ← peek
  if l.isSpelled "." then
    role .object
    token "."
    memberName start
    go (.accesses start calls)
  else if l.isSpelled "[" then
    role .object
    subscript go start
    go (.accesses start calls)
  else if calls && l.isSpelled "?." then
    let (_, second) ← peekSecond
    role (if second.isSpelled "(" then .function else .object)
    leaf .optionalChain (some .optionalChain)
    if second.isSpelled "(" then callArguments go start
    else if second.isSpelled "[" then subscript go start
    else memberName start
    go (.accesses start calls)
  else if calls && l.isSpelled "(" then
    role .function
    callArguments go start
    go (.accesses start calls)
  else if l.shape == .backtick then
    role .function
    template go
    role .arguments
    close start .callExpression
    go (.accesses start calls)

/-- Reads `new` with its constructor and arguments, or `new.target`. -/
def newExpression (go : Goal → Step src Unit) : Step src Unit := do
  let start ← mark
  token "new"
  if ← tokenIf "." then
    token "target"
    close start .metaProperty
  else
    go (.access false)
    role .constructorOf
    if ← sees "(" then
      go .arguments
      role .arguments
    close start .newExpression

-- ================================================== functions and classes

/-- Reads the body of an arrow function and closes it. -/
def arrowBody (go : Goal → Step src Unit) (start : Nat) : Step src Unit := do
  token "=>"
  if ← sees "\x7b" then go .block else go (.assignment false)
  role .body
  close start .arrowFunction

/-- The next token is `=>` on the same line. -/
def seesArrow : Step src Bool := do
  return (← sees "=>") && !(← gap).newline

/-- Reads the parameters of an arrow function, if that is what comes. -/
def arrowParameters (go : Goal → Step src Unit) : Step src Bool :=
  attempt do
    go .parameters
    role .parameters
    seesArrow

/-- Reads a function from its keyword on; `async` may stand before it. -/
def function (go : Goal → Step src Unit) (start : Nat) (declared : Bool) :
    Step src Unit := do
  let _ ← tokenIf "async"
  token "function"
  let generator ← tokenIf "*"
  if declared || (← peek).isName then name (some .name)
  go .parameters
  role .parameters
  go .block
  role .body
  close start <| match declared, generator with
    | true, true => .generatorFunctionDeclaration
    | true, false => .functionDeclaration
    | false, true => .generatorFunction
    | false, false => .functionExpression

/-- Reads the parameters and the body of a method and closes it. -/
def method (go : Goal → Step src Unit) (start : Nat) : Step src Unit := do
  go .parameters
  role .parameters
  go .block
  role .body
  close start .methodDefinition

/-- Reads the words in front of a method's name. -/
def methodModifiers : Step src Unit := do
  let (g, second) ← peekSecond
  let plain := second.shape == .mark
    && ["(", "=", ";", "\x7d", ",", ":"].any second.isSpelled
  if (← sees "async") && !plain && !g.newline then token "async"
  let (_, third) ← peekSecond
  if ← sees "*" then token "*"
  else if (← seesAny ["get", "set"]) && third.startsProperty then bare none

/-- Reads a class from its keyword on. -/
def classFrom (go : Goal → Step src Unit) (start : Nat) (declared : Bool) :
    Step src Unit := do
  token "class"
  if declared || (← peek).isName then name (some .name)
  let heritage ← mark
  if ← tokenIf "extends" then
    go (.access true)
    close heritage .classHeritage
  let body ← mark
  token "\x7b"
  go .members
  token "\x7d"
  close body .classBody
  role .body
  close start (if declared then .classDeclaration else .classExpr)

/-- Reads the members of a class. -/
def members (go : Goal → Step src Unit) : Step src Unit := do
  if ← sees "\x7d" then return
  if ← tokenIf ";" then go .members
  else
    let start ← mark
    let (_, second) ← peekSecond
    if (← sees "static") && second.isSpelled "\x7b" then
      token "static"
      go .block
      role .body
      close start .classStaticBlock
      role .member
    else
      let plain := ["(", "=", ";", "\x7d"].any second.isSpelled
      if (← sees "static") && !plain then token "static"
      methodModifiers
      propertyName go .name
      if ← sees "(" then
        go (.method start)
        role .member
      else
        role .property
        if ← tokenIf "=" then
          go (.assignment false)
          role .value
        close start .fieldDefinition
        role .member
        if !(← sees ";") then require (← endsHere)
    go .members

-- ============================================================== literals

/-- Reads the properties of an object literal. A name with a default
value is read too: it is right once the object turns out to be a
pattern. -/
def properties (go : Goal → Step src Unit) : Step src Unit := do
  if ← sees "\x7d" then return
  let start ← mark
  let l ← peek
  let (_, second) ← peekSecond
  if ← tokenIf "..." then
    go (.assignment false)
    close start .spreadElement
  else if l.isName && second.isSpelled "=" then
    leaf .shorthandPropertyIdentifierPattern (some .left)
    token "="
    go (.assignment false)
    role .right
    close start .objectAssignmentPattern
  else if l.isName && (second.isSpelled "," || second.isSpelled "\x7d") then
    leaf .shorthandPropertyIdentifier none
  else
    methodModifiers
    propertyName go .name
    if ← sees "(" then go (.method start)
    else
      role .key
      token ":"
      go (.assignment false)
      role .value
      close start .pair
  if ← tokenIf "," then go .properties

/-- Reads an expression in parentheses. -/
def parenthesized (go : Goal → Step src Unit) : Step src Unit := do
  let start ← mark
  token "("
  go (.expression false)
  token ")"
  close start .parenthesizedExpression

/-- The words that are expressions of their own. -/
def wordLiteral? : String → Option Symbol
  | "this" => some .thisExpr
  | "super" => some .superExpr
  | "null" => some .nullLit
  | "true" => some .trueLit
  | "false" => some .falseLit
  | "undefined" => some .undefinedLit
  | _ => none

/-- Reads an expression that starts with `import`. -/
def importWord : Step src Unit := do
  let start ← mark
  token "import"
  if ← tokenIf "." then
    token "meta"
    close start .metaProperty
  else
    require (← sees "(")
    close start .importExpr

/-- Reads an expression that starts with a name: the name itself, or an
arrow function. -/
def nameOrArrow (go : Goal → Step src Unit) : Step src Unit := do
  let start ← mark
  let (g, second) ← peekSecond
  if (← sees "async") && !g.newline && second.isSpelled "function" then
    go (.function start false)
  else if (← sees "async") && !g.newline && second.isName then
    token "async"
    name (some .parameter)
    arrowBody go start
  else if (← sees "async") && !g.newline && second.isSpelled "(" then
    let arrow ← attempt do
      token "async"
      go .parameters
      role .parameters
      seesArrow
    if arrow then arrowBody go start else name none
  else if second.isSpelled "=>" && !g.newline then
    name (some .parameter)
    arrowBody go start
  else match wordLiteral? (← peek).text with
    | some sym => leaf sym none
    | none => name none

/-- Reads an expression that no operator, access or call follows. -/
def primary (go : Goal → Step src Unit) : Step src Unit := do
  let start ← mark
  let l ← peek
  match l.shape with
  | .number => leaf .number none
  | .quote => string
  | .backtick => template go
  | .secret => leaf .privatePropertyIdentifier none
  | .word =>
    if l.text == "function" then go (.function start false)
    else if l.text == "class" then go (.classFrom start false)
    else if l.text == "import" then importWord
    else if l.text == "new" then newExpression go
    else nameOrArrow go
  | .mark =>
    if l.text == "(" then
      if ← arrowParameters go then arrowBody go start else parenthesized go
    else if l.text == "[" then
      token "["
      go (.elements true)
      token "]"
      close start .array
    else if l.text == "\x7b" then
      token "\x7b"
      go .properties
      token "\x7d"
      close start .object
    else if l.text == "/" || l.text == "/=" then regex
    else failure
  | _ => failure

/-- Reads an expression with its member accesses and calls. -/
def access (go : Goal → Step src Unit) (calls : Bool) : Step src Unit := do
  let start ← mark
  primary go
  go (.accesses start calls)

end Codemod.Parse
