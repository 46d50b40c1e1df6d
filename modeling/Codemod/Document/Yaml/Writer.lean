/-
Writing documents in YAML.

Collections are written as blocks, two columns per level, the items of a
sequence in the column of its key; keys are sorted. A text is written
plainly if it reads back as itself, else in single quotes, and in double
quotes where it holds something that must be escaped. A line is broken
at a single space once it is longer than eighty columns.
-/
import Codemod.Document.Yaml.Reader

namespace Codemod.Yaml

-- =============================================================== styles

/-- How a text is written. -/
inductive Style where
  | plain
  | single
  | double
deriving DecidableEq

/-- A point that only an escape can stand for: all but the printed
characters of ASCII and the end of a line. -/
def needsEscape (p : Point) : Bool :=
  !(p.is '\n' || (0x20 ≤ p.code && p.code ≤ 0x7E))

/-- A space and the end of a line stand side by side, in this order. -/
def hasPair (a b : Char) : Text → Bool
  | p :: q :: t => (p.is a && q.is b) || hasPair a b (q :: t)
  | _ => false

/-- The character takes part in the structure of a block where it
stands: behind `before`, in front of `after`. -/
def isMark (before : Option Char) (c : Char) (after : List Char) : Bool :=
  match before with
  | none =>
    "#,[]\x7b\x7d&*!|>'\"%@`".toList.contains c
      || ((c == '?' || c == ':' || c == '-') && isParted after)
  | some b => (c == ':' && isParted after) || (c == '#' && isParted [b])

/-- Some character of the text takes part in the structure of a block. -/
def hasMark : Option Char → List Char → Bool
  | _, [] => false
  | before, c :: cs => isMark before c cs || hasMark (some c) cs

/-- The text can stand without quotes. -/
def isPlain (t : Text) : Bool :=
  match t.toChars? with
  | none => false
  | some cs =>
    isWord cs && !cs.contains '\n' && cs.head? != some ' ' && cs.getLast? != some ' '
      && !(["---".toList, "...".toList].contains (cs.take 3)) && !hasMark none cs

/-- How a text is written. -/
def styleOf (t : Text) : Style :=
  if t.any needsEscape || hasPair ' ' '\n' t || hasPair '\n' ' ' t then .double
  else if isPlain t then .plain
  else .single

-- ============================================================== scalars

/-- The length of a line beyond which it is broken. -/
def bestWidth : Nat := 80

/-- A new line, so many columns deep. -/
def newLine (column : Nat) : Text :=
  .scalar '\n' :: List.replicate column (.scalar ' ')

/-- Writes a text that needs no escapes from a column on. A quote is
doubled between single quotes; a run of line ends gets one more; a
single space in a line that is too long becomes the end of the line. -/
def writeFlowing (quoted : Bool) (indent : Nat) :
    Option Point → Nat → Text → Text
  | _, _, [] => []
  | before, column, p :: t =>
    let isBreak (o : Option Point) := o.any (·.is '\n')
    let isSpace (o : Option Point) := o.any (·.is ' ')
    if p.is '\n' then
      let opening : Text := if isBreak before then [] else [p]
      let closing : Text :=
        if isBreak t.head? then [] else List.replicate indent (.scalar ' ')
      opening ++ p :: closing ++ writeFlowing quoted indent (some p) indent t
    else if p.is ' ' && bestWidth < column && !isSpace before && !isSpace t.head?
        && before.isSome && !t.isEmpty then
      newLine indent ++ writeFlowing quoted indent (some p) indent t
    else if quoted && p.is '\'' then
      p :: p :: writeFlowing quoted indent (some p) (column + 2) t
    else p :: writeFlowing quoted indent (some p) (column + 1) t

/-- The short escapes of the writer, by what they stand for. -/
def shortEscape? (p : Point) : Option Char :=
  (escapes.find? fun (c, n) => n == p.code && c != '\t' && c != ' ' && c != '/').map (·.1)

/-- The escape by number, as short as its size allows, in capitals. -/
def writeNumbered (n : Nat) : Text :=
  let digits (k : Nat) := Text.ofChars ((Text.hexText k n).map Char.toUpper)
  if n < 0x100 then Text.ofString "\\x" ++ digits 2
  else if n < 0x10000 then Text.ofString "\\u" ++ digits 4
  else Text.ofString "\\U" ++ digits 8

/-- A point between double quotes. -/
def writePoint (p : Point) : Text :=
  match shortEscape? p with
  | some c => [.scalar '\\', .scalar c]
  | none =>
    if 0x20 ≤ p.code && p.code ≤ 0x7E then [p] else writeNumbered p.code

/-- Writes a text between double quotes from a column on; `before`
counts the points in front. A line that is too long is broken behind a
backslash, at a space or at an escape. -/
def writeEscaped (indent : Nat) : Nat → Nat → Text → Text
  | _, _, [] => []
  | before, column, p :: t =>
    let written := writePoint p
    let isEscape := written.length != 1
    let isInside := 0 < before && !t.isEmpty
    if isInside && p.is ' ' && bestWidth < column then
      Text.ofString "\\" ++ newLine indent
        ++ Text.ofString "\\ " ++ writeEscaped indent (before + 1) (indent + 2) t
    else if isInside && isEscape && bestWidth < column + written.length then
      let space : Text := if t.head?.any (·.is ' ') then [.scalar '\\'] else []
      written ++ Text.ofString "\\" ++ newLine indent ++ space
        ++ writeEscaped indent (before + 1) (indent + space.length) t
    else written ++ writeEscaped indent (before + 1) (column + written.length) t

/-- A text from a column on, its further lines so many columns deep. -/
def writeText (indent column : Nat) (t : Text) : Text :=
  match styleOf t with
  | .plain => writeFlowing false indent none column t
  | .single =>
    Text.ofString "'" ++ writeFlowing true indent none (column + 1) t ++ Text.ofString "'"
  | .double =>
    Text.ofString "\"" ++ writeEscaped indent 0 (column + 1) t ++ Text.ofString "\""

-- ============================================================ documents

/-- The entries with their keys sorted. -/
def sortEntries (es : List (String × Value)) : List (String × Value) :=
  es.mergeSort fun a b => a.1 ≤ b.1

mutual

/-- The value with the keys of its mappings sorted. -/
def sorted : Value → Value
  | .list vs => .list (sortedItems vs)
  | .map es => .map (sortEntries (sortedEntries es))
  | .null => .null
  | .bool b => .bool b
  | .int n => .int n
  | .other s => .other s
  | .text t => .text t

/-- The items, each sorted. -/
def sortedItems : List Value → List Value
  | [] => []
  | v :: vs => sorted v :: sortedItems vs

/-- The entries, the value of each sorted. -/
def sortedEntries : List (String × Value) → List (String × Value)
  | [] => []
  | (k, v) :: es => (k, sorted v) :: sortedEntries es

end

/-- A value that stands on the line of its key or dash. -/
def writeAtom (indent column : Nat) : Value → Text
  | .null => "null"
  | .bool b => if b then "true" else "false"
  | .int n => toString n
  | .other s => s
  | .text t => writeText indent column t
  | .list _ => "[]"
  | .map _ => "\x7b\x7d"

/-- A key with its colon. -/
def writeKey (column : Nat) (k : String) : Text :=
  writeText (column + 2) column (Text.ofString k) ++ Text.ofString ":"

mutual

/-- A value behind a dash, from a column on. -/
def writeItem (column : Nat) : Value → Text
  | .list (v :: vs) => writeItems column (v :: vs)
  | .map (e :: es) => writeEntries column (e :: es)
  | v => writeAtom column column v

/-- The items of a sequence in a column, the first without its
indentation. -/
def writeItems (column : Nat) : List Value → Text
  | [] => []
  | [v] => Text.ofString "- " ++ writeItem (column + 2) v
  | v :: w :: vs =>
    Text.ofString "- " ++ (writeItem (column + 2) v
      ++ (newLine column ++ writeItems column (w :: vs)))

/-- The value behind a key of the column, the colon ending at `ending`.
The items of a sequence stand in the column of the key. -/
def writeAssigned (column ending : Nat) : Value → Text
  | .list (v :: vs) => newLine column ++ writeItems column (v :: vs)
  | .map (e :: es) => newLine (column + 2) ++ writeEntries (column + 2) (e :: es)
  | v => Text.ofString " " ++ writeAtom (column + 2) (ending + 1) v

/-- The entries of a mapping in a column, the first without its
indentation. -/
def writeEntries (column : Nat) : List (String × Value) → Text
  | [] => []
  | [(k, v)] =>
    let key := writeKey column k
    key ++ writeAssigned column (column + key.length) v
  | (k, v) :: e :: es =>
    let key := writeKey column k
    key ++ (writeAssigned column (column + key.length) v
      ++ (newLine column ++ writeEntries column (e :: es)))

end

/-- The document of a value. -/
def write (v : Value) : Text :=
  (match sorted v with
    | .list (u :: us) => writeItems 0 (u :: us)
    | .map (e :: es) => writeEntries 0 (e :: es)
    | atom => writeAtom 2 0 atom) ++ Text.ofString "\n"

end Codemod.Yaml
