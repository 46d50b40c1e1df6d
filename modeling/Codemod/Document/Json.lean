/-
Documents as JSON.

Reading follows the grammar of JSON; of two entries with one key the
later wins, and the names of the numbers that are not finite are read as
well. Writing puts every item on a line of its own, two spaces deeper
than what holds it.
-/
import Codemod.Document.Value

namespace Codemod.Json

-- ============================================================== reading

/-- A reader returns what it has read and the rest. -/
abbrev Reader (α : Type) := List Char → Option (α × List Char)

/-- White space between tokens. -/
def isBlank (c : Char) : Bool := c == ' ' || c == '\t' || c == '\n' || c == '\r'

/-- The rest behind white space. -/
def skip (cs : List Char) : List Char := cs.dropWhile isBlank

/-- The rest behind a word. -/
def behind? (word : String) (cs : List Char) : Option (List Char) :=
  if word.toList.isPrefixOf cs then some (cs.drop word.length) else none

/-- The value of a hexadecimal digit. -/
def hexValue? (c : Char) : Option Nat :=
  if c.isDigit then some (c.toNat - '0'.toNat)
  else if 'a' ≤ c && c ≤ 'f' then some (c.toNat - 'a'.toNat + 10)
  else if 'A' ≤ c && c ≤ 'F' then some (c.toNat - 'A'.toNat + 10)
  else none

/-- The number of four hexadecimal digits. -/
def unit? : Reader Nat
  | a :: b :: c :: d :: cs =>
    match [a, b, c, d].mapM hexValue? with
    | some ds => some (ds.foldl (fun n k => n * 16 + k) 0, cs)
    | none => none
  | _ => none

/-- The point of a `\u` escape, the two halves of a pair joined. -/
def escapedUnit? (cs : List Char) : Option (Point × List Char) :=
  match unit? cs with
  | none => none
  | some (hi, rest) =>
    let alone := (Point.ofCode? hi).map (·, rest)
    if 0xD800 ≤ hi && hi < 0xDC00 then
      match (behind? "\\u" rest).bind unit? with
      | some (lo, rest') =>
        if 0xDC00 ≤ lo && lo < 0xE000 then
          (Point.ofCode? (0x10000 + (hi - 0xD800) * 0x400 + (lo - 0xDC00))).map (·, rest')
        else alone
      | none => alone
    else alone

/-- The character that a short escape stands for. -/
def shortEscape? : Char → Option Char
  | '"' => some '"'
  | '\\' => some '\\'
  | '/' => some '/'
  | 'b' => some '\x08'
  | 'f' => some '\x0c'
  | 'n' => some '\n'
  | 'r' => some '\r'
  | 't' => some '\t'
  | _ => none

/-- The body of a string, up to its closing quote. -/
def body? : Nat → Reader Text
  | 0, _ => none
  | _ + 1, [] => none
  | fuel + 1, c :: cs =>
    if c == '"' then some ([], cs)
    else if c == '\\' then
      match cs with
      | 'u' :: rest =>
        match escapedUnit? rest with
        | some (p, rest') => (body? fuel rest').map fun (t, r) => (p :: t, r)
        | none => none
      | e :: rest =>
        match shortEscape? e with
        | some d => (body? fuel rest).map fun (t, r) => (.scalar d :: t, r)
        | none => none
      | [] => none
    else if c.toNat < 0x20 then none
    else (body? fuel cs).map fun (t, r) => (.scalar c :: t, r)

/-- A run of digits. -/
def digits (cs : List Char) : List Char × List Char := cs.span Char.isDigit

/-- The number of a run of digits. -/
def digitsValue (ds : List Char) : Nat :=
  ds.foldl (fun n c => n * 10 + (c.toNat - '0'.toNat)) 0

/-- The fraction of a number. -/
def fraction (cs : List Char) : List Char × List Char :=
  match cs with
  | '.' :: rest =>
    match digits rest with
    | ([], _) => ([], cs)
    | (ds, rest') => ('.' :: ds, rest')
  | _ => ([], cs)

/-- The exponent of a number. -/
def exponent (cs : List Char) : List Char × List Char :=
  match cs with
  | e :: rest =>
    if e == 'e' || e == 'E' then
      let (sign, rest') := match rest with
        | s :: more => if s == '+' || s == '-' then ([s], more) else ([], rest)
        | [] => ([], rest)
      match digits rest' with
      | ([], _) => ([], cs)
      | (ds, more) => (e :: sign ++ ds, more)
    else ([], cs)
  | [] => ([], cs)

/-- A number. -/
def number? (cs : List Char) : Option (Value × List Char) :=
  let (sign, unsigned) := match cs with
    | '-' :: rest => (['-'], rest)
    | _ => ([], cs)
  let (whole, rest) := match unsigned with
    | '0' :: more => (['0'], more)
    | _ => digits unsigned
  if whole.isEmpty then none
  else
    let (frac, rest') := fraction rest
    let (exp, rest'') := exponent rest'
    if frac.isEmpty && exp.isEmpty then
      let n := Int.ofNat (digitsValue whole)
      some (.int (if sign.isEmpty then n else -n), rest'')
    else some (.other (String.ofList (sign ++ whole ++ frac ++ exp)), rest'')

/-- The words that stand for values. -/
def words : List (String × Value) := [
  ("null", .null), ("true", .bool true), ("false", .bool false),
  ("NaN", .other "nan"), ("Infinity", .other "inf"), ("-Infinity", .other "-inf")]

/-- The value that a word stands for. -/
def word? (cs : List Char) : Option (Value × List Char) :=
  words.findSome? fun (w, v) => (behind? w cs).map (v, ·)

mutual

/-- A value. -/
def value? : Nat → Reader Value
  | 0, _ => none
  | fuel + 1, cs =>
    match cs with
    | '"' :: rest => (body? (rest.length + 1) rest).map fun (t, r) => (.text t, r)
    | '[' :: rest =>
      match skip rest with
      | ']' :: r => some (.list [], r)
      | inside => (items? fuel inside).map fun (vs, r) => (.list vs, r)
    | '\x7b' :: rest =>
      match skip rest with
      | '\x7d' :: r => some (.map [], r)
      | inside => (entries? fuel [] inside).map fun (es, r) => (.map es, r)
    | _ => (word? cs).orElse fun _ => number? cs

/-- The items of a list, up to its closing bracket. -/
def items? : Nat → Reader (List Value)
  | 0, _ => none
  | fuel + 1, cs =>
    match value? fuel cs with
    | none => none
    | some (v, rest) =>
      match skip rest with
      | ',' :: more => (items? fuel (skip more)).map fun (vs, r) => (v :: vs, r)
      | ']' :: r => some ([v], r)
      | _ => none

/-- The entries of a mapping, up to its closing brace, after others. -/
def entries? : Nat → List (String × Value) → Reader (List (String × Value))
  | 0, _, _ => none
  | fuel + 1, known, cs =>
    match cs with
    | '"' :: rest =>
      match body? (rest.length + 1) rest with
      | none => none
      | some (k, rest') =>
        match skip rest' with
        | ':' :: more =>
          match value? fuel (skip more) with
          | none => none
          | some (v, more') =>
            let es := Value.put k.display v known
            match skip more' with
            | ',' :: next => entries? fuel es (skip next)
            | '\x7d' :: r => some (es, r)
            | _ => none
        | _ => none
    | _ => none

end

/-- The value of a document; none if the text is not one. -/
def parse (cs : List Char) : Option Value :=
  match value? (2 * cs.length + 2) (skip cs) with
  | some (v, rest) => if (skip rest).isEmpty then some v else none
  | none => none

-- ============================================================== writing

/-- Four hexadecimal digits behind `\u`. -/
def writeUnit (n : Nat) : Text :=
  Text.ofString "\\u" ++ Text.ofChars (Text.hexText 4 n)

/-- A point outside ASCII by its UTF-16 units. -/
def writeUnits (n : Nat) : Text :=
  if n < 0x10000 then writeUnit n
  else writeUnit (0xD800 + (n - 0x10000) / 0x400)
    ++ writeUnit (0xDC00 + (n - 0x10000) % 0x400)

/-- A text in quotes; only ASCII on demand. -/
def writeText (asciiOnly : Bool) (t : Text) : Text :=
  let point (p : Point) : Text :=
    if asciiOnly && p.code ≥ 0x80 then writeUnits p.code else Text.escapePoint p
  .scalar '"' :: t.flatMap point ++ [.scalar '"']

/-- A new line, so many levels deep. -/
def newLine (depth : Nat) : Text :=
  .scalar '\n' :: List.replicate (2 * depth) (.scalar ' ')

mutual

/-- A value that starts so many levels deep. -/
def writeAt (asciiOnly : Bool) (depth : Nat) : Value → Text
  | .null => "null"
  | .bool b => if b then "true" else "false"
  | .int n => toString n
  | .other s => s
  | .text t => writeText asciiOnly t
  | .list [] => "[]"
  | .list (v :: vs) =>
    Text.ofString "[" ++ (writeItems asciiOnly (depth + 1) (v :: vs)
      ++ (newLine depth ++ Text.ofString "]"))
  | .map [] => "\x7b\x7d"
  | .map (e :: es) =>
    Text.ofString "\x7b" ++ (writeEntries asciiOnly (depth + 1) (e :: es)
      ++ (newLine depth ++ Text.ofString "\x7d"))

/-- The items of a list, each on a line of its own. -/
def writeItems (asciiOnly : Bool) (depth : Nat) : List Value → Text
  | [] => []
  | [v] => newLine depth ++ writeAt asciiOnly depth v
  | v :: w :: vs =>
    newLine depth ++ (writeAt asciiOnly depth v
      ++ (Text.ofString "," ++ writeItems asciiOnly depth (w :: vs)))

/-- The entries of a mapping, each on a line of its own. -/
def writeEntries (asciiOnly : Bool) (depth : Nat) : List (String × Value) → Text
  | [] => []
  | [(k, v)] =>
    newLine depth ++ (writeText asciiOnly (Text.ofString k)
      ++ (Text.ofString ": " ++ writeAt asciiOnly depth v))
  | (k, v) :: e :: es =>
    newLine depth ++ (writeText asciiOnly (Text.ofString k)
      ++ (Text.ofString ": " ++ (writeAt asciiOnly depth v
        ++ (Text.ofString "," ++ writeEntries asciiOnly depth (e :: es)))))

end

/-- The document of a value. -/
def write (asciiOnly : Bool) (v : Value) : Text := writeAt asciiOnly 0 v

end Codemod.Json
