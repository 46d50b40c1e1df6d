/-
Property names, binding patterns and parameters.
-/
import Codemod.Parse.Literal

namespace Codemod.Parse

open Step

variable {src : List Char}

/-- The words that are never names of variables. -/
def reservedWords : List String := [
  "break", "case", "catch", "class", "const", "continue", "debugger",
  "default", "delete", "do", "else", "export", "extends", "finally", "for",
  "function", "if", "import", "in", "instanceof", "new", "return", "super",
  "switch", "this", "throw", "try", "typeof", "var", "void", "while", "with",
  "yield", "null", "true", "false", "await"]

/-- The token can name a variable. -/
def Lexeme.isName (l : Lexeme) : Bool :=
  l.shape == .word && !reservedWords.contains l.text

/-- The token can start the name of a property. -/
def Lexeme.startsProperty (l : Lexeme) : Bool :=
  l.shape == .word || l.shape == .secret || l.shape == .quote
    || l.shape == .number || l.isSpelled "["

/-- Reads the name of a property and gives it a role. -/
def propertyName (go : Goal → Step src Unit) (r : Role) : Step src Unit := do
  let l ← peek
  match l.shape with
  | .word => leaf .propertyIdentifier none
  | .secret => leaf .privatePropertyIdentifier none
  | .number => leaf .number none
  | .quote => string
  | _ => do
    let start ← mark
    token "["
    go (.assignment false)
    token "]"
    close start .computedPropertyName
  role r

/-- Reads the name of a variable. -/
def name (r : Option Role) : Step src Unit := do
  require (← peek).isName
  leaf .identifier r

/-- Reads a pattern. -/
def target (go : Goal → Step src Unit) (declared : Bool) : Step src Unit := do
  let start ← mark
  if ← tokenIf "\x7b" then
    go .patternProperties
    token "\x7d"
    close start .objectPattern
  else if ← tokenIf "[" then
    go .patternElements
    token "]"
    close start .arrayPattern
  else if !declared && (← sees "undefined") then leaf .undefinedLit none
  else name none

/-- Reads `...` and a pattern. -/
def restTarget (go : Goal → Step src Unit) : Step src Unit := do
  let start ← mark
  token "..."
  go (.target false)
  close start .restPattern

/-- Reads a pattern and the default value behind it. -/
def targetWithDefault (go : Goal → Step src Unit) : Step src Unit := do
  let start ← mark
  go (.target false)
  if ← sees "=" then
    role .left
    token "="
    go (.assignment false)
    role .right
    close start .assignmentPattern

/-- Reads the properties of an object pattern. -/
def patternProperties (go : Goal → Step src Unit) : Step src Unit := do
  if ← sees "\x7d" then return
  let start ← mark
  let l ← peek
  let (_, second) ← peekSecond
  if ← sees "..." then restTarget go
  else if l.isName && second.isSpelled "=" then
    leaf .shorthandPropertyIdentifierPattern (some .left)
    token "="
    go (.assignment false)
    role .right
    close start .objectAssignmentPattern
  else if l.isName && !second.isSpelled ":" then
    leaf .shorthandPropertyIdentifierPattern none
  else
    propertyName go .key
    token ":"
    go .targetWithDefault
    role .value
    close start .pairPattern
  if ← tokenIf "," then go .patternProperties

/-- Reads the elements of an array pattern. -/
def patternElements (go : Goal → Step src Unit) : Step src Unit := do
  if ← sees "]" then return
  if ← tokenIf "," then go .patternElements
  else
    if ← sees "..." then restTarget go else go .targetWithDefault
    if ← tokenIf "," then go .patternElements

/-- Reads parameters in parentheses. -/
def parameters (go : Goal → Step src Unit) : Step src Unit := do
  let start ← mark
  token "("
  go .parameterList
  token ")"
  close start .formalParameters

/-- Reads the parameters up to the closing parenthesis. -/
def parameterList (go : Goal → Step src Unit) : Step src Unit := do
  if ← sees ")" then return
  if ← sees "..." then restTarget go else go .targetWithDefault
  if ← tokenIf "," then go .parameterList

end Codemod.Parse
