/-
Lexemes of the script language.

A lexeme is described by its length at the front of the remaining
characters, so that reading one always splits the input into what was
read and what is left. White space and comments are gaps; `Gap.ends`
tells where a statement may end without a semicolon.
-/
namespace Codemod.Parse

-- ===================================================== character classes

/-- Space separators of Unicode. -/
def isSpaceSeparator (c : Char) : Bool :=
  let n := c.toNat
  n == 0x20 || n == 0xA0 || n == 0x1680 || (0x2000 ≤ n && n ≤ 0x200A)
    || n == 0x202F || n == 0x205F || n == 0x3000

/-- White space between tokens. -/
def isGap (c : Char) : Bool :=
  let n := c.toNat
  (9 ≤ n && n ≤ 13) || isSpaceSeparator c || n == 0xFEFF || n == 0x2028
    || n == 0x2029 || n == 0x2060 || n == 0x200B

/-- White space that can stand in for a semicolon. -/
def isNewline (c : Char) : Bool :=
  c == '\n' || c.toNat == 0x2028 || c.toNat == 0x2029

/-- What ends a line comment. -/
def isLineEnd (c : Char) : Bool := c == '\r' || isNewline c

/-- Punctuation that no name contains. -/
def namePunctuation : List Char :=
  ":;\x60\"'@#.,|^&<=>+-*/\\%?!~()[]\x7b\x7d".toList

/-- A character a name may contain after its start. -/
def isNamePart (c : Char) : Bool :=
  c.toNat > 0x1F && !isGap c && !namePunctuation.contains c

/-- A character a name may start with. -/
def isNameStart (c : Char) : Bool := isNamePart c && !c.isDigit

/-- A hexadecimal digit. -/
def isHexDigit (c : Char) : Bool :=
  c.isDigit || ('a' ≤ c && c ≤ 'f') || ('A' ≤ c && c ≤ 'F')

-- ============================================================== lengths

/-- The number of leading characters that satisfy `p`. -/
def runLength (p : Char → Bool) (cs : List Char) : Nat :=
  (cs.takeWhile p).length

/-- The length of a `\u` escape inside a name; zero when there is none. -/
def nameEscapeLength : List Char → Nat
  | '\\' :: 'u' :: '{' :: cs =>
    let n := runLength isHexDigit cs
    match cs.drop n with
    | '}' :: _ => if n = 0 then 0 else n + 4
    | _ => 0
  | '\\' :: 'u' :: a :: b :: c :: d :: _ =>
    if [a, b, c, d].all isHexDigit then 6 else 0
  | _ => 0

/-- The length of the rest of a name, of at most `fuel` units. -/
def namePartsLength : Nat → List Char → Nat
  | 0, _ => 0
  | _, [] => 0
  | fuel + 1, c :: cs =>
    if isNamePart c then namePartsLength fuel cs + 1
    else
      let n := nameEscapeLength (c :: cs)
      if n = 0 then 0 else n + namePartsLength fuel ((c :: cs).drop n)

/-- The length of a name; zero when none starts here. -/
def nameLength : List Char → Nat
  | [] => 0
  | c :: cs =>
    if isNameStart c then namePartsLength cs.length cs + 1
    else
      let n := nameEscapeLength (c :: cs)
      if n = 0 then 0
      else n + namePartsLength cs.length ((c :: cs).drop n)

/-- The length of a run of digits with single underscores between them. -/
def digitsLength (p : Char → Bool) : List Char → Nat
  | [] => 0
  | [c] => if p c then 1 else 0
  | c :: d :: cs =>
    if !p c then 0
    else if d == '_' then
      match cs with
      | e :: _ => if p e then digitsLength p cs + 2 else 1
      | [] => 1
    else digitsLength p (d :: cs) + 1

/-- The length of an exponent; zero when there is none. -/
def exponentLength : List Char → Nat
  | e :: cs =>
    if e == 'e' || e == 'E' then
      let sign := match cs with
        | '+' :: _ => 1
        | '-' :: _ => 1
        | _ => 0
      let n := digitsLength Char.isDigit (cs.drop sign)
      if n = 0 then 0 else 1 + sign + n
    else 0
  | [] => 0

/-- The length of a number in a base other than ten, after its mark. -/
def basedLength (p : Char → Bool) (cs : List Char) : Nat :=
  let n := digitsLength p cs
  if n = 0 then 1
  else match cs.drop n with
    | 'n' :: _ => n + 3
    | _ => n + 2

/-- The length of a decimal number. -/
def decimalLength (cs : List Char) : Nat :=
  let n := digitsLength Char.isDigit cs
  match cs.drop n with
  | 'n' :: _ => if n = 0 then 0 else n + 1
  | '.' :: rest =>
    let f := digitsLength Char.isDigit rest
    if n = 0 && f = 0 then 0
    else n + 1 + f + exponentLength (rest.drop f)
  | rest => if n = 0 then 0 else n + exponentLength rest

/-- The length of a number; zero when none starts here. -/
def numberLength : List Char → Nat
  | '0' :: m :: cs =>
    if m == 'x' || m == 'X' then basedLength isHexDigit cs
    else if m == 'o' || m == 'O' then basedLength (fun c => '0' ≤ c && c ≤ '7') cs
    else if m == 'b' || m == 'B' then basedLength (fun c => c == '0' || c == '1') cs
    else decimalLength ('0' :: m :: cs)
  | cs => decimalLength cs

/-- The length of a block comment's rest, up to its end. -/
def blockCommentLength? : List Char → Option Nat
  | [] => none
  | '*' :: '/' :: _ => some 2
  | _ :: cs => (blockCommentLength? cs).map (· + 1)

/-- The length of a comment; zero when none starts here. -/
def commentLength : List Char → Nat
  | '/' :: '/' :: cs => 2 + runLength (fun c => !isLineEnd c) cs
  | '/' :: '*' :: cs =>
    match blockCommentLength? cs with
    | some n => n + 2
    | none => 0
  | _ => 0

/-- The length of an escape sequence in a string or template; zero when
none starts here. -/
def escapeLength : List Char → Nat
  | '\\' :: 'x' :: a :: b :: _ => if isHexDigit a && isHexDigit b then 4 else 0
  | '\\' :: 'x' :: _ => 0
  | '\\' :: 'u' :: cs => nameEscapeLength ('\\' :: 'u' :: cs)
  | '\\' :: c :: cs =>
    if '0' ≤ c && c ≤ '7' then
      1 + min 3 (runLength (fun d => '0' ≤ d && d ≤ '7') (c :: cs))
    else match cs with
      | d :: _ => if (c == '\r' || c == '?') && isNewline d then 3 else 2
      | [] => 2
  | _ => 0

/-- The length of a character class of a regular expression, after its
opening bracket. -/
def regexClassLength? : List Char → Option Nat
  | [] => none
  | ']' :: _ => some 1
  | '\\' :: c :: cs =>
    if c == '\n' then none else (regexClassLength? cs).map (· + 2)
  | c :: cs => if c == '\n' then none else (regexClassLength? cs).map (· + 1)

/-- The length of a regular expression's pattern, of at most `fuel`
units. -/
def regexPatternLength : Nat → List Char → Nat
  | 0, _ => 0
  | _, [] => 0
  | fuel + 1, '[' :: cs =>
    match regexClassLength? cs with
    | some n => n + 1 + regexPatternLength fuel (cs.drop n)
    | none => 0
  | fuel + 1, '\\' :: c :: cs =>
    if c == '\n' then 0 else regexPatternLength fuel cs + 2
  | fuel + 1, c :: cs =>
    if c == '/' || c == '\\' || c == '\n' then 0
    else regexPatternLength fuel cs + 1

/-- The length of a template's characters up to its next mark. -/
def templateRunLength : List Char → Nat
  | [] => 0
  | '$' :: '{' :: _ => 0
  | c :: cs => if c == '\x60' || c == '\\' then 0 else templateRunLength cs + 1

-- ============================================================== lexemes

/-- The punctuation tokens, longer ones before those they start with. -/
def punctuators : List String := [
  ">>>=", "...", "===", "!==", "**=", "<<=", ">>=", ">>>", "&&=", "||=",
  "??=", "=>", "==", "!=", "<=", ">=", "&&", "||", "??", "?.", "++", "--",
  "+=", "-=", "*=", "/=", "%=", "&=", "|=", "^=", "<<", ">>", "**",
  "\x7b", "\x7d", "(", ")", "[", "]", ";", ",", "<", ">", "+", "-", "*", "/",
  "%", "&", "|", "^", "!", "~", "?", ":", "=", "."]

/-- What kind of token comes next. -/
inductive Shape where
  /-- A name or keyword. -/
  | word
  /-- A name behind `#`. -/
  | secret
  /-- A number. -/
  | number
  /-- The quote that opens a string. -/
  | quote
  /-- The backtick that opens or closes a template. -/
  | backtick
  /-- Punctuation. -/
  | mark
  /-- The end of the text. -/
  | done
  /-- No token. -/
  | stray
deriving DecidableEq, Inhabited

/-- A token at the front of the remaining characters. -/
structure Lexeme where
  /-- What it is. -/
  shape : Shape
  /-- Its spelling. -/
  text : String
  /-- How many characters it takes. -/
  length : Nat
deriving Inhabited

/-- The punctuation at the front of the characters. -/
def punctuator? (cs : List Char) : Option String :=
  punctuators.find? fun p =>
    p.toList.isPrefixOf cs
      && !(p == "?." && match cs.drop 2 with
        | d :: _ => d.isDigit
        | [] => false)

/-- The lexeme of a given length at the front of the characters. -/
def Lexeme.at (s : Shape) (n : Nat) (cs : List Char) : Lexeme :=
  ⟨s, String.ofList (cs.take n), n⟩

/-- The token at the front of the characters. -/
def Lexeme.read : List Char → Lexeme
  | [] => ⟨.done, "", 0⟩
  | c :: cs =>
    let name := nameLength (c :: cs)
    let num := numberLength (c :: cs)
    if name > 0 then Lexeme.at .word name (c :: cs)
    else if num > 0 then Lexeme.at .number num (c :: cs)
    else if c == '\'' || c == '"' then Lexeme.at .quote 1 (c :: cs)
    else if c == '\x60' then Lexeme.at .backtick 1 (c :: cs)
    else if c == '#' && nameLength cs > 0 then
      Lexeme.at .secret (nameLength cs + 1) (c :: cs)
    else match punctuator? (c :: cs) with
      | some p => ⟨.mark, p, p.length⟩
      | none => Lexeme.at .stray 1 (c :: cs)

-- ================================================================= gaps

/-- What lies between two tokens. -/
structure Gap where
  /-- A newline stands outside the comments. -/
  newline : Bool
  /-- The characters after the gap. -/
  rest : List Char

/-- The gap at the front of the characters, of at most `fuel` runs. -/
def Gap.skip : Nat → Bool → List Char → Gap
  | 0, nl, cs => ⟨nl, cs⟩
  | fuel + 1, nl, cs =>
    let blank := cs.takeWhile isGap
    let rest := cs.dropWhile isGap
    let nl' := nl || blank.any isNewline
    let n := commentLength rest
    if n = 0 then ⟨nl', rest⟩ else Gap.skip fuel nl' (rest.drop n)

/-- The gap at the front of the characters. -/
def Gap.read (cs : List Char) : Gap := Gap.skip (cs.length + 1) false cs

/-- The word at the front of the characters is followed by no letter. -/
def startsWord (w : String) (cs : List Char) : Bool :=
  w.toList.isPrefixOf cs && match cs.drop w.length with
    | c :: _ => !c.isAlpha
    | [] => true

/-- A token that goes on with the statement on the line before. -/
def continuesStatement : List Char → Bool
  | [] => false
  | '.' :: d :: _ => !d.isDigit
  | '+' :: d :: _ => d != '+'
  | '-' :: d :: _ => d != '-'
  | '!' :: d :: _ => d == '='
  | c :: cs =>
    "\x60,:;*%><=[(?^|&/.+-".toList.contains c
      || startsWord "in" (c :: cs) || startsWord "instanceof" (c :: cs)

/-- A statement may end in this gap without a semicolon. -/
def Gap.ends (g : Gap) : Bool :=
  match g.rest with
  | [] => true
  | '}' :: _ => true
  | _ => g.newline && !continuesStatement g.rest

end Codemod.Parse
