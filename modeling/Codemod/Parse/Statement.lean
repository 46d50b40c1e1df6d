/-
Statements and declarations, and the import and export forms of modules.
-/
import Codemod.Parse.Expression

namespace Codemod.Parse

open Step

variable {src : List Char}

-- ========================================================= declarations

/-- Reads the declarators of a declaration. -/
def declarators (go : Goal → Step src Unit) (noIn : Bool) : Step src Unit := do
  let start ← mark
  go (.target true)
  role .name
  if ← tokenIf "=" then
    go (.assignment noIn)
    role .value
  close start .variableDeclarator
  if ← tokenIf "," then go (.declarators noIn)

/-- Reads a declaration from its keyword on. -/
def declaration (go : Goal → Step src Unit) : Step src Unit := do
  let start ← mark
  let isVar ← sees "var"
  bare (if isVar then none else some .kind)
  go (.declarators false)
  semicolon
  close start (if isVar then .variableDeclaration else .lexicalDeclaration)

/-- The next word declares names: `var`, `const`, or `let` in front of a
pattern. -/
def seesDeclaration : Step src Bool := do
  let (_, second) ← peekSecond
  let binds := second.isName || second.isSpelled "[" || second.isSpelled "\x7b"
  return (← seesAny ["var", "const"]) || ((← sees "let") && binds)

/-- A function declaration comes next. -/
def seesFunction : Step src Bool := do
  let (g, second) ← peekSecond
  return (← sees "function")
    || ((← sees "async") && second.isSpelled "function" && !g.newline)

-- =========================================================== control flow

/-- Reads the statements of a block. -/
def block (go : Goal → Step src Unit) : Step src Unit := do
  let start ← mark
  token "\x7b"
  go .statements
  token "\x7d"
  close start .statementBlock

/-- Reads statements up to a closing brace or the end. -/
def statements (go : Goal → Step src Unit) : Step src Unit := do
  let l ← peek
  if l.shape == .done || l.isSpelled "\x7d" then return
  go .statement
  go .statements

/-- Reads a condition in parentheses and gives it a role. -/
def condition (go : Goal → Step src Unit) (r : Role) : Step src Unit := do
  parenthesized go
  role r

/-- Reads an `if` with its alternatives. -/
def ifStatement (go : Goal → Step src Unit) : Step src Unit := do
  let start ← mark
  token "if"
  condition go .condition
  go .statement
  role .consequence
  if ← sees "else" then
    let other ← mark
    token "else"
    go .statement
    close other .elseClause
    role .alternative
  close start .ifStatement

/-- Reads the rest of a loop over the values of an expression. -/
def forIn (go : Goal → Step src Unit) (start : Nat) : Step src Unit := do
  bare (some .operator)
  go (.expression false)
  role .right
  token ")"
  go .statement
  role .body
  close start .forInStatement

/-- Reads the condition, the increment and the body of a counting loop. -/
def forRest (go : Goal → Step src Unit) (start : Nat) : Step src Unit := do
  let cond ← mark
  if ← tokenIf ";" then
    close cond .emptyStatement
    role .condition
  else
    go (.expression false)
    role .condition
    token ";"
    role .condition
  if !(← sees ")") then
    go (.expression false)
    role .increment
  token ")"
  go .statement
  role .body
  close start .forStatement

/-- A loop over keys or values names its variable here without a
declarator: the token behind the pattern is `in` or `of`. -/
def loopVariable (go : Goal → Step src Unit) : Step src Bool := attempt do
  bare (some .kind)
  go (.target true)
  role .left
  seesAny ["in", "of"]

/-- Reads a `for` statement. -/
def forStatement (go : Goal → Step src Unit) : Step src Unit := do
  let start ← mark
  token "for"
  let _ ← tokenIf "await"
  token "("
  let init ← mark
  if ← tokenIf ";" then
    close init .emptyStatement
    role .initializer
    forRest go start
  else if ← seesDeclaration then
    if ← loopVariable go then forIn go start
    else
      let isVar ← sees "var"
      bare (if isVar then none else some .kind)
      go (.declarators true)
      token ";"
      close init (if isVar then .variableDeclaration else .lexicalDeclaration)
      role .initializer
      forRest go start
  else
    go (.expression true)
    if ← seesAny ["in", "of"] then
      if ← lastIsAny [.object, .array] then retarget
      require (← lastIsAny
        (.objectPattern :: .arrayPattern :: Node.simpleTargets))
      role .left
      forIn go start
    else
      role .initializer
      token ";"
      forRest go start

/-- Reads `while` with its condition and body. -/
def whileStatement (go : Goal → Step src Unit) : Step src Unit := do
  let start ← mark
  token "while"
  condition go .condition
  go .statement
  role .body
  close start .whileStatement

/-- Reads `do` with its body and condition. -/
def doStatement (go : Goal → Step src Unit) : Step src Unit := do
  let start ← mark
  token "do"
  go .statement
  role .body
  token "while"
  condition go .condition
  let _ ← tokenIf ";"
  close start .doStatement

/-- Reads `with` with its object and body. -/
def withStatement (go : Goal → Step src Unit) : Step src Unit := do
  let start ← mark
  token "with"
  condition go .object
  go .statement
  role .body
  close start .withStatement

/-- Reads a `switch` statement. -/
def switchStatement (go : Goal → Step src Unit) : Step src Unit := do
  let start ← mark
  token "switch"
  condition go .value
  let body ← mark
  token "\x7b"
  go .cases
  token "\x7d"
  close body .switchBody
  role .body
  close start .switchStatement

/-- Reads the cases of a `switch`. -/
def cases (go : Goal → Step src Unit) : Step src Unit := do
  if ← sees "\x7d" then return
  let start ← mark
  if ← tokenIf "case" then
    go (.expression false)
    role .value
    token ":"
    go .caseBody
    close start .switchCase
  else
    token "default"
    token ":"
    go .caseBody
    close start .switchDefault
  go .cases

/-- Reads the statements of a case. -/
def caseBody (go : Goal → Step src Unit) : Step src Unit := do
  if ← seesAny ["\x7d", "case", "default"] then return
  go .statement
  role .body
  go .caseBody

/-- Reads a `try` statement. -/
def tryStatement (go : Goal → Step src Unit) : Step src Unit := do
  let start ← mark
  token "try"
  go .block
  role .body
  if ← sees "catch" then
    let handler ← mark
    token "catch"
    if ← tokenIf "(" then
      go (.target true)
      role .parameter
      token ")"
    go .block
    role .body
    close handler .catchClause
    role .handler
  if ← sees "finally" then
    let finalizer ← mark
    token "finally"
    go .block
    role .body
    close finalizer .finallyClause
    role .finalizer
  close start .tryStatement

/-- Reads a `return` with its value, if it has one. -/
def returnStatement (go : Goal → Step src Unit) : Step src Unit := do
  let start ← mark
  token "return"
  if !((← sees ";") || (← endsHere)) then go (.expression false)
  semicolon
  close start .returnStatement

/-- Reads a `throw` with its value. -/
def throwStatement (go : Goal → Step src Unit) : Step src Unit := do
  let start ← mark
  token "throw"
  go (.expression false)
  semicolon
  close start .throwStatement

/-- Reads `break` or `continue` with its label, if it has one. -/
def jump (word : String) (sym : Symbol) : Step src Unit := do
  let start ← mark
  token word
  if !(← endsHere) && (← peek).isName then
    leaf .statementIdentifier (some .label)
  semicolon
  close start sym

/-- Reads a statement behind a label. -/
def labeled (go : Goal → Step src Unit) : Step src Unit := do
  let start ← mark
  leaf .statementIdentifier (some .label)
  token ":"
  go .statement
  role .body
  close start .labeledStatement

/-- Reads an expression as a statement. -/
def expressionStatement (go : Goal → Step src Unit) : Step src Unit := do
  let start ← mark
  go (.expression false)
  semicolon
  close start .expressionStatement

-- =============================================================== modules

/-- Reads `from` and the module it names. -/
def source : Step src Unit := do
  token "from"
  string
  role .source

/-- Reads an imported or exported name: a word, where `default` is no
name, or a string. -/
def specifierName (r : Role) : Step src Unit := do
  let l ← peek
  if l.shape == .quote then
    string
    role r
  else
    require (l.shape == .word)
    if l.text == "default" then bare (some r) else leaf .identifier (some r)

/-- Reads one imported or exported name and what it is called here. -/
def specifier (sym : Symbol) : Step src Unit := do
  let start ← mark
  specifierName .name
  if ← tokenIf "as" then specifierName .alias
  close start sym

/-- Reads imported names up to the closing brace. -/
def importSpecifiers (go : Goal → Step src Unit) : Step src Unit := do
  if ← sees "\x7d" then return
  specifier .importSpecifier
  if ← tokenIf "," then go .importSpecifiers

/-- Reads exported names up to the closing brace. -/
def exportSpecifiers (go : Goal → Step src Unit) : Step src Unit := do
  if ← sees "\x7d" then return
  specifier .exportSpecifier
  if ← tokenIf "," then go .exportSpecifiers

/-- Reads `* as` and a name, or names in braces. -/
def importedNames (go : Goal → Step src Unit) : Step src Unit := do
  let start ← mark
  if ← tokenIf "*" then
    token "as"
    name none
    close start .namespaceImport
  else
    token "\x7b"
    go .importSpecifiers
    token "\x7d"
    close start .namedImports

/-- Reads an `import` statement. -/
def importStatement (go : Goal → Step src Unit) : Step src Unit := do
  let start ← mark
  token "import"
  if (← peek).shape == .quote then
    string
    role .source
  else
    let clause ← mark
    if (← peek).isName then
      name none
      if ← tokenIf "," then importedNames go
    else importedNames go
    close clause .importClause
    source
  semicolon
  close start .importStatement

/-- A function or class with a name comes next. -/
def seesNamedDeclaration : Step src Bool := attempt do
  let _ ← tokenIf "async"
  if ← tokenIf "class" then return (← peek).isName
  token "function"
  let _ ← tokenIf "*"
  return (← peek).isName

/-- Runs a test that reads ahead, and reads nothing. -/
def lookAhead (p : Step src Bool) : Step src Bool := do
  let s ← get
  let b ← p
  set s
  return b

/-- Reads what `export default` exports. -/
def exportDefault (go : Goal → Step src Unit) : Step src Unit := do
  token "default"
  if ← lookAhead seesNamedDeclaration then
    go .statement
    role .declaration
  else
    go (.assignment false)
    role .value
    semicolon

/-- Reads an `export` statement. -/
def exportStatement (go : Goal → Step src Unit) : Step src Unit := do
  let start ← mark
  token "export"
  let part ← mark
  let (_, second) ← peekSecond
  if ← sees "default" then exportDefault go
  else if ← sees "*" then
    token "*"
    if second.isSpelled "as" then
      token "as"
      name none
      close part .namespaceExport
    source
    semicolon
  else if ← sees "\x7b" then
    token "\x7b"
    go .exportSpecifiers
    token "\x7d"
    close part .exportClause
    if ← sees "from" then source
    semicolon
  else
    require ((← seesDeclaration) || (← seesFunction) || (← sees "class"))
    go .statement
    role .declaration
  close start .exportStatement

-- ============================================================ statements

/-- Reads the statement that a keyword starts. -/
def keywordStatement? (go : Goal → Step src Unit) :
    String → Option (Step src Unit)
  | "if" => some (ifStatement go)
  | "for" => some (forStatement go)
  | "while" => some (whileStatement go)
  | "do" => some (doStatement go)
  | "switch" => some (switchStatement go)
  | "try" => some (tryStatement go)
  | "return" => some (returnStatement go)
  | "throw" => some (throwStatement go)
  | "break" => some (jump "break" .breakStatement)
  | "continue" => some (jump "continue" .continueStatement)
  | "with" => some (withStatement go)
  | "export" => some (exportStatement go)
  | "debugger" => some do
    let start ← mark
    token "debugger"
    semicolon
    close start .debuggerStatement
  | "class" => some do
    let start ← mark
    go (.classFrom start true)
  | _ => none

/-- Reads a statement. -/
def statement (go : Goal → Step src Unit) : Step src Unit := do
  let start ← mark
  let l ← peek
  let (_, second) ← peekSecond
  if l.isSpelled "\x7b" then block go
  else if l.isSpelled ";" then
    token ";"
    close start .emptyStatement
  else if ← seesDeclaration then declaration go
  else if ← seesFunction then go (.function start true)
  else if l.isSpelled "import" && !second.isSpelled "("
      && !second.isSpelled "." then importStatement go
  else if l.isName && second.isSpelled ":" then labeled go
  else if l.shape == .word then
    match keywordStatement? go l.text with
    | some p => p
    | none => expressionStatement go
  else expressionStatement go

end Codemod.Parse
