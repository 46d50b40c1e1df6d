/-
Escapes in string literals.

`unescape` gives the text a literal's body denotes, reading escapes one
at a time, so that two surrogate escapes stay two points. `escape` is
the body that denotes a text in double quotes: quotes, backslashes and
control characters are escaped and nothing else.
-/
import Codemod.Text.Class

namespace Codemod

/-- Why the body of a literal denotes no text. -/
inductive Unreadable where
  /-- An escape has no single meaning, or no meaning. -/
  | ambiguous
  /-- An escape names a number that is far too large. -/
  | oversized
deriving DecidableEq

namespace Text

/-- The value of a hexadecimal digit. -/
def hexDigit? : Point → Option Nat
  | .surrogate _ => none
  | .scalar c =>
    if '0' ≤ c && c ≤ '9' then some (c.toNat - '0'.toNat)
    else if 'a' ≤ c && c ≤ 'f' then some (c.toNat - 'a'.toNat + 10)
    else if 'A' ≤ c && c ≤ 'F' then some (c.toNat - 'A'.toNat + 10)
    else none

/-- The hexadecimal number at the front of a text, the number of its
digits, and what follows. -/
def hexNumber : Text → Nat → Nat → Nat × Nat × Text
  | [], value, count => (value, count, [])
  | p :: t, value, count =>
    match hexDigit? p with
    | some d => hexNumber t (value * 16 + d) (count + 1)
    | none => (value, count, p :: t)

/-- The point an escape by number denotes. -/
def numbered (n : Nat) : Except Unreadable Point :=
  match Point.ofCode? n with
  | some p => .ok p
  | none => .error (if n < 0x80000000 then .ambiguous else .oversized)

/-- What the point behind a backslash denotes, for an escape without
digits. -/
def simpleEscape (p : Point) : Except Unreadable Text :=
  match p with
  | .surrogate _ => .ok [p]
  | .scalar c =>
    match c with
    | 'n' => .ok [.scalar '\n']
    | 'r' => .ok [.scalar '\r']
    | 't' => .ok [.scalar '\t']
    | 'b' => .ok [.scalar '\x08']
    | 'f' => .ok [.scalar '\x0c']
    | 'v' => .ok [.scalar '\x0b']
    | '0' => .ok [.scalar '\x00']
    | '\n' => .ok []
    | '\r' => .ok []
    | _ =>
      if c.toNat == 0x2028 || c.toNat == 0x2029 then .ok []
      else if '1' ≤ c && c ≤ '9' then .error .ambiguous
      else .ok [p]

/-- An escape behind its backslash: what it denotes and how many points
it takes. -/
def escapeAt : Text → Except Unreadable (Text × Nat)
  | [] => .ok ([.scalar '\\'], 0)
  | .scalar 'x' :: a :: b :: _ =>
    match hexDigit? a, hexDigit? b with
    | some m, some n => do return ([← numbered (m * 16 + n)], 3)
    | _, _ => .ok ([.scalar 'x'], 1)
  | .scalar 'u' :: t =>
    match t with
    | .scalar '{' :: u =>
      match hexNumber u 0 0 with
      | (n, count, .scalar '}' :: _) =>
        if count = 0 then .ok ([.scalar 'u'], 1)
        else do return ([← numbered n], count + 3)
      | _ => .ok ([.scalar 'u'], 1)
    | _ =>
      match hexNumber (t.take 4) 0 0 with
      | (n, 4, _) => do return ([← numbered n], 5)
      | _ => .ok ([.scalar 'u'], 1)
  | .scalar '\r' :: .scalar '\n' :: _ => .ok ([], 2)
  | p :: _ => do return (← simpleEscape p, 1)

/-- Reads a literal's body, `skip` points of which belong to an escape
already read. -/
def unescapeFrom : Nat → Text → Except Unreadable Text
  | _, [] => .ok []
  | skip + 1, _ :: t => unescapeFrom skip t
  | 0, p :: t =>
    if p.is '\\' then do
      let (denoted, taken) ← escapeAt t
      return denoted ++ (← unescapeFrom taken t)
    else do return p :: (← unescapeFrom 0 t)

/-- A digit stands behind `\0` somewhere in the body. -/
def hasOctalZero (t : Text) : Bool :=
  t.suffixes.any fun
    | p :: q :: r :: _ => p.is '\\' && q.is '0' && r.test Char.isDigit
    | _ => false

/-- The text that a literal's body denotes. -/
def unescape (t : Text) : Except Unreadable Text :=
  if hasOctalZero t then .error .ambiguous else unescapeFrom 0 t

/-- Lower case hexadecimal digits, at least `width` of them. -/
def hexText (width n : Nat) : List Char :=
  let ds := Nat.toDigits 16 n
  List.replicate (width - ds.length) '0' ++ ds

/-- The characters that stand for a point in double quotes. -/
def escapePoint (p : Point) : Text :=
  match p with
  | .surrogate _ => [p]
  | .scalar c =>
    match c with
    | '"' => ofString "\\\""
    | '\\' => ofString "\\\\"
    | '\n' => ofString "\\n"
    | '\r' => ofString "\\r"
    | '\t' => ofString "\\t"
    | '\x0c' => ofString "\\f"
    | '\x08' => ofString "\\b"
    | _ => if c.toNat < 0x20 then ofString "\\u" ++ ofChars (hexText 4 c.toNat) else [p]

/-- The body of a double-quoted literal that denotes a text. -/
def escape (t : Text) : Text := t.flatMap escapePoint

/-- A body for double quotes made one for single quotes. -/
def requote : Text → Text
  | [] => []
  | [p] => if p.is '\'' then ofString "\\'" else [p]
  | p :: q :: t =>
    if p.is '\\' && q.is '"' then q :: requote t
    else if p.is '\'' then ofString "\\'" ++ requote (q :: t)
    else p :: requote (q :: t)

end Text

end Codemod
