/-
Steps of the parser.

A step reads ahead, pushes tokens, closes nodes or fails. Productions of
the grammar are written against `Goal`, the things a production may ask
to be parsed next, so each stands on its own; `Source.lean` ties them
together.
-/
import Codemod.Parse.Progress
import Codemod.Parse.Target

namespace Codemod.Parse

/-- A step of a parse of `src`; it fails on text outside the grammar. -/
abbrev Step (src : List Char) := StateT (Progress src) Option

/-- The token is the given word or punctuation. -/
def Lexeme.isSpelled (l : Lexeme) (t : String) : Bool :=
  (l.shape == .word || l.shape == .mark) && l.text == t

/-- What a production may ask to be parsed. Numbers are heights of the
stack at which a node under construction starts; `noIn` leaves the
operator `in` to a loop head. -/
inductive Goal where
  | statement
  /-- Statements up to a closing brace, a further case or the end. -/
  | statements
  /-- The statements of a `case`. -/
  | caseBody
  /-- The cases of a `switch`. -/
  | cases
  | block
  | declarators (noIn : Bool)
  | expression (noIn : Bool)
  | sequence (start : Nat) (noIn : Bool)
  | assignment (noIn : Bool)
  | binary (level : Nat) (noIn : Bool)
  | operators (start level : Nat) (noIn : Bool)
  | unary
  /-- An expression up to its member accesses and calls. -/
  | access (calls : Bool)
  /-- Further member accesses and calls. -/
  | accesses (start : Nat) (calls : Bool)
  | arguments
  /-- Arguments or elements up to the closing bracket. -/
  | elements (holes : Bool)
  /-- Properties of an object literal up to the closing brace. -/
  | properties
  /-- Members of a class up to the closing brace. -/
  | members
  | parameters
  | parameterList
  /-- A pattern; `declared` where a plain name can only be declared. -/
  | target (declared : Bool)
  /-- A pattern with an optional default value. -/
  | targetWithDefault
  | patternProperties
  | patternElements
  /-- Parts of a template up to its closing backtick. -/
  | templateParts
  | function (start : Nat) (declared : Bool)
  | classFrom (start : Nat) (declared : Bool)
  | method (start : Nat)
  | importSpecifiers
  | exportSpecifiers

namespace Step

variable {src : List Char}

-- ========================================================= reading ahead

/-- The gap in front of the next token. -/
def gap : Step src Gap := do return Gap.read (← get).rest

/-- The next token. -/
def peek : Step src Lexeme := do return Lexeme.read (← gap).rest

/-- The gap after the next token, and the token behind it. -/
def peekSecond : Step src (Gap × Lexeme) := do
  let rest := (← gap).rest
  let after := Gap.read (rest.drop (Lexeme.read rest).length)
  return (after, Lexeme.read after.rest)

/-- The next token is the given word or punctuation. -/
def sees (t : String) : Step src Bool := do return (← peek).isSpelled t

/-- The next token is one of the given words or punctuation marks. -/
def seesAny (ts : List String) : Step src Bool := do
  let l ← peek
  return ts.any l.isSpelled

/-- A statement may end here without a semicolon. -/
def endsHere : Step src Bool := do return (← gap).ends

/-- Goes on only if the condition holds. -/
def require (b : Bool) : Step src Unit := if b then pure () else failure

-- ============================================================== reading

/-- The height at which a node that starts here begins. The comments in
front of it are read first. -/
def mark : Step src Nat := do
  modify (·.flush)
  return (← get).height

/-- The present height, comments left unread. -/
def here : Step src Nat := do return (← get).height

/-- Closes a node around everything above a height. -/
def close (start : Nat) (sym : Symbol) : Step src Unit :=
  modify (·.gather start sym)

/-- Reads the next token as a leaf of a given kind. -/
def take (kind : String → Kind) (named : Bool) (role : Option Role) :
    Step src Unit := do
  modify (·.flush)
  let blank := runLength isGap (← get).rest
  let l := Lexeme.read ((← get).rest.drop blank)
  require (0 < l.length)
  modify (·.push (kind l.text) named role blank l.length)

/-- Reads the next token as a named leaf. -/
def leaf (sym : Symbol) (role : Option Role) : Step src Unit :=
  take (fun _ => sym) true role

/-- Reads the next token, whatever it is, as a bare token. -/
def bare (role : Option Role) : Step src Unit := take Kind.ofName false role

/-- Reads the given token. -/
def token (t : String) : Step src Unit := do
  require (← sees t)
  bare none

/-- Reads the given token if it comes next. -/
def tokenIf (t : String) : Step src Bool := do
  let b ← sees t
  if b then bare none
  return b

/-- Reads `len` characters that follow without a gap. -/
def adjoining (kind : Kind) (named : Bool) (role : Option Role) (len : Nat) :
    Step src Unit := do
  require (0 < len)
  modify (·.push kind named role 0 len)

/-- Gives the last tree a role. -/
def role (r : Role) : Step src Unit :=
  modify (·.revise (fun n => n.placed (some r) n.lead)
    fun n => congrArg (n.lead ++ ·) (Node.code_placed n _ _))

/-- The kind of the last tree is one of those given. -/
def lastIsAny (ss : List Symbol) : Step src Bool := do
  match (← get).last? with
  | some n => return n.isAny ss
  | none => return false

/-- Reads the last tree as an assignment target. -/
def retarget : Step src Unit := do
  match (← get).last? with
  | some n => require n.isTarget
  | none => failure
  modify (·.revise Node.asTarget Node.render_asTarget)

/-- Reads a semicolon, or ends the statement without one. -/
def semicolon : Step src Unit := do
  if !(← tokenIf ";") then require (← endsHere)

/-- Takes the step if it succeeds with `true`; otherwise nothing is
read. -/
def attempt (p : Step src Bool) : Step src Bool := fun s =>
  match p.run s with
  | some (true, s') => some (true, s')
  | _ => some (false, s)

end Step

end Codemod.Parse
