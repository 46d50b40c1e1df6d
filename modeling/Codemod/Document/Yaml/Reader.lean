/-
Reading documents in YAML.

The reader accepts block and flow collections of plain and quoted
scalars. Columns decide what belongs to a block collection: its entries
stand in one column, and what belongs to an entry stands further to the
right. A key stands on one line with its colon. Between brackets columns
mean nothing.

Reading is bounded by fuel; each request costs one unit, and a request
that leads to another reads a character or opens a level.
-/
import Codemod.Text.Escape
import Codemod.Document.Yaml.Scalar

namespace Codemod.Yaml

-- =============================================================== places

/-- Where the reader stands. -/
structure Place where
  /-- The text ahead. -/
  rest : List Char
  /-- The column of its first character. -/
  column : Nat
  line : Nat

/-- A space, the end of a line or the end of the text follows. -/
def isParted : List Char → Bool
  | [] => true
  | c :: _ => c == ' ' || c == '\t' || c == '\n'

namespace Place

/-- The place some characters further on the same line. -/
def move (p : Place) (n : Nat) : Place :=
  { p with rest := p.rest.drop n, column := p.column + n }

/-- The place of the next token: behind spaces, comments and the ends of
lines. -/
def skipFrom : List Char → Bool → Nat → Nat → Place
  | [], _, column, line => ⟨[], column, line⟩
  | c :: cs, comment, column, line =>
    if c == '\n' then skipFrom cs false 0 (line + 1)
    else if comment || c == '#' then skipFrom cs true (column + 1) line
    else if c == ' ' then skipFrom cs false (column + 1) line
    else ⟨c :: cs, column, line⟩

/-- The place of the next token. -/
def skip (p : Place) : Place := skipFrom p.rest false p.column p.line

/-- A line that divides documents starts here, spelled with the given
character. -/
def atDivider (p : Place) (c : Char) : Bool :=
  p.column == 0 && p.rest.take 3 == [c, c, c] && isParted (p.rest.drop 3)

/-- The document ends here. -/
def atEnd (p : Place) : Bool := p.rest.isEmpty || p.atDivider '-' || p.atDivider '.'

/-- The mark of an item of a block sequence. -/
def atDash (p : Place) : Bool := p.rest.head? == some '-' && isParted (p.rest.drop 1)

/-- The colon behind the key of a block mapping. -/
def atColon (p : Place) : Bool := p.rest.head? == some ':' && isParted (p.rest.drop 1)

/-- The character ahead. -/
def starts (p : Place) (c : Char) : Bool := p.rest.head? == some c

/-- The place behind white space inside a scalar, the number of lines
that ended in it, and whether a document ends there. -/
def breaksFrom (tabs : Bool) :
    List Char → Nat → Nat → Nat → Place × Nat × Bool
  | [], column, line, count => (⟨[], column, line⟩, count, false)
  | c :: cs, column, line, count =>
    let here : Place := ⟨c :: cs, column, line⟩
    if 0 < count && here.atEnd then (here, count, true)
    else if c == '\n' then breaksFrom tabs cs 0 (line + 1) (count + 1)
    else if c == ' ' || (tabs && c == '\t') then
      breaksFrom tabs cs (column + 1) line count
    else (here, count, false)

/-- The white space at a place: what it stands for in a scalar, where it
ends, and whether a document ends there. The end of one line stands for
a space, the ends of several for one line less. -/
def gap (p : Place) (tabs : Bool) : Text × Place × Bool :=
  let (q, count, ended) := breaksFrom tabs p.rest p.column p.line 0
  let text := match count with
    | 0 => Text.ofChars (p.rest.take (p.rest.length - q.rest.length))
    | 1 => [.scalar ' ']
    | k + 1 => List.replicate k (.scalar '\n')
  (text, q, ended)

end Place

/-- A reader returns what it has read and where it stands then. -/
abbrev Reader (α : Type) := Place → Option (α × Place)

-- ============================================================== scalars

/-- The marks that end a plain scalar between brackets. -/
def isFlowMark (c : Char) : Bool :=
  c == ',' || c == '[' || c == ']' || c == '\x7b' || c == '\x7d'

/-- No plain scalar goes on at this character. -/
def stopsPlain (flow : Bool) (c : Char) (cs : List Char) : Bool :=
  c == ' ' || c == '\t' || c == '\n'
    || (c == ':' && (isParted cs || (flow && cs.head?.any isFlowMark)))
    || (flow && (isFlowMark c || c == '?'))

/-- The characters up to the end of a piece of a plain scalar. -/
def piece (flow : Bool) : List Char → List Char
  | [] => []
  | c :: cs => if stopsPlain flow c cs then [] else c :: piece flow cs

/-- A plain scalar starts with this character. -/
def startsPlain (flow : Bool) : List Char → Bool
  | [] => false
  | c :: cs =>
    let mark := "-?:,[]\x7b\x7d#&*!|>'\"%@`".toList.contains c
    !(c == ' ' || c == '\t' || c == '\n')
      && (!mark || (!isParted cs && (c == '-' || (!flow && (c == '?' || c == ':')))))

/-- The pieces of a plain scalar with what stands between them. Its
further lines start at the given column at least. -/
def plain (flow : Bool) (column : Nat) : Nat → Place → Text × Place
  | 0, p => ([], p)
  | fuel + 1, p =>
    let word := piece flow p.rest
    let behind := p.move word.length
    let (space, q, ended) := behind.gap false
    if word.isEmpty || space.isEmpty || ended || q.starts '#'
        || (!flow && q.column < column) then
      (Text.ofChars word, behind)
    else match plain flow column fuel q with
      | ([], _) => (Text.ofChars word, behind)
      | (more, r) => (Text.ofChars word ++ space ++ more, r)

/-- White space: a space, a tab or the end of a line. -/
def isBlank (c : Char) : Bool := c == ' ' || c == '\t' || c == '\n'

/-- The body of a scalar in single quotes; two of them stand for one. -/
def single : Nat → Reader Text
  | 0, _ => none
  | fuel + 1, p =>
    match p.rest with
    | [] => none
    | c :: cs =>
      if c == '\'' then
        if cs.head? == some '\'' then
          (single fuel (p.move 2)).map fun (t, q) => (.scalar c :: t, q)
        else some ([], p.move 1)
      else if isBlank c then
        let (space, q, ended) := p.gap true
        if ended then none else (single fuel q).map fun (t, r) => (space ++ t, r)
      else (single fuel (p.move 1)).map fun (t, q) => (.scalar c :: t, q)

/-- The escapes of one character and what they stand for. -/
def escapes : List (Char × Nat) := [
  ('0', 0x00), ('a', 0x07), ('b', 0x08), ('t', 0x09), ('\t', 0x09), ('n', 0x0A),
  ('v', 0x0B), ('f', 0x0C), ('r', 0x0D), ('e', 0x1B), (' ', 0x20), ('"', 0x22),
  ('\\', 0x5C), ('/', 0x2F), ('N', 0x85), ('_', 0xA0), ('L', 0x2028), ('P', 0x2029)]

/-- The number of digits of an escape by number. -/
def escapeDigits? : Char → Option Nat
  | 'x' => some 2
  | 'u' => some 4
  | 'U' => some 8
  | _ => none

/-- The point that an escape stands for, and its length. -/
def escaped? : List Char → Option (Point × Nat)
  | [] => none
  | c :: cs =>
    match escapeDigits? c with
    | some n =>
      let ds := cs.take n
      if ds.length == n && ds.all (fun d => digitValue d < 16) then
        (Point.ofCode? (runValue 16 ds)).map (·, n + 1)
      else none
    | none => ((escapes.lookup c).bind Point.ofCode?).map (·, 1)

/-- The body of a scalar in double quotes. -/
def double : Nat → Reader Text
  | 0, _ => none
  | fuel + 1, p =>
    match p.rest with
    | [] => none
    | c :: cs =>
      if c == '"' then some ([], p.move 1)
      else if c == '\\' then
        if cs.head? == some '\n' then
          let (q, count, ended) := Place.breaksFrom true cs 0 p.line 0
          let lines : Text := List.replicate (count - 1) (.scalar '\n')
          if ended then none else (double fuel q).map fun (t, r) => (lines ++ t, r)
        else match escaped? cs with
          | some (e, n) => (double fuel (p.move (n + 1))).map fun (t, q) => (e :: t, q)
          | none => none
      else if isBlank c then
        let (space, q, ended) := p.gap true
        if ended then none else (double fuel q).map fun (t, r) => (space ++ t, r)
      else (double fuel (p.move 1)).map fun (t, q) => (.scalar c :: t, q)

/-- What a plain scalar is read as. -/
def plainValue? (t : Text) : Option Value :=
  match t.toChars? with
  | none => some (.text t)
  | some cs =>
    match meaning cs with
    | .value v => some v
    | .word => some (.text t)
    | .reserved => none

/-- A scalar, with its value and with its text. -/
def scalar (flow : Bool) (column : Nat) : Reader (Value × Text) := fun p =>
  let fuel := p.rest.length + 1
  match p.rest with
  | [] => none
  | c :: cs =>
    if p.atEnd then none
    else if c == '\'' then (single fuel (p.move 1)).map fun (t, q) => ((.text t, t), q)
    else if c == '"' then (double fuel (p.move 1)).map fun (t, q) => ((.text t, t), q)
    else if startsPlain flow (c :: cs) then
      let (t, q) := plain flow column fuel p
      (plainValue? t).map fun v => ((v, t), q)
    else none

-- ====================================================== flow collections

/-- A collection cannot be a key; anything else is one by its text. -/
def key? : Value × Text → Option String
  | (.list _, _) => none
  | (.map _, _) => none
  | (_, t) => some t.display

mutual

/-- A value between brackets, with its text if it is a scalar. -/
def flowValue : Nat → Reader (Value × Text)
  | 0, _ => none
  | fuel + 1, p =>
    if p.starts '[' then
      (flowItems fuel (p.move 1).skip).map fun (vs, q) => ((.list vs, []), q)
    else if p.starts '\x7b' then
      (flowEntries fuel [] (p.move 1).skip).map fun (es, q) => ((.map es, []), q)
    else scalar true 0 p

/-- The value behind a colon between brackets; nothing stands for
null. -/
def flowAssigned : Nat → Reader Value
  | 0, _ => none
  | fuel + 1, p =>
    if p.starts ',' || p.starts ']' || p.starts '\x7d' then some (.null, p)
    else (flowValue fuel p).map fun ((v, _), q) => (v, q)

/-- The items up to the closing bracket. An item with a colon is a
mapping of one entry. -/
def flowItems : Nat → Reader (List Value)
  | 0, _ => none
  | fuel + 1, p =>
    if p.starts ']' then some ([], p.move 1)
    else match flowValue fuel p with
      | none => none
      | some (item, behind) =>
        let q := behind.skip
        let read : Option (Value × Place) :=
          if q.starts ':' then
            if q.line == p.line then
              match key? item, flowAssigned fuel (q.move 1).skip with
              | some k, some (v, r) => some (.map [(k, v)], r.skip)
              | _, _ => none
            else none
          else some (item.1, q)
        match read with
        | none => none
        | some (v, r) =>
          if r.starts ',' then
            (flowItems fuel (r.move 1).skip).map fun (vs, s) => (v :: vs, s)
          else if r.starts ']' then some ([v], r.move 1)
          else none

/-- The entries up to the closing brace, after others. A key without a
colon has the value null. -/
def flowEntries : Nat → List (String × Value) → Reader (List (String × Value))
  | 0, _, _ => none
  | fuel + 1, known, p =>
    if p.starts '\x7d' then some (known, p.move 1)
    else match flowValue fuel p with
      | none => none
      | some (item, behind) =>
        let q := behind.skip
        let read : Option (Value × Place) :=
          if q.starts ':' then
            if q.line == p.line then
              (flowAssigned fuel (q.move 1).skip).map fun (v, r) => (v, r.skip)
            else none
          else some (.null, q)
        match key? item, read with
        | some k, some (v, r) =>
          let es := Value.put k v known
          if r.starts ',' then flowEntries fuel es (r.move 1).skip
          else if r.starts '\x7d' then some (es, r.move 1)
          else none
        | _, _ => none

end

-- ===================================================== block collections

/-- What encloses a value of a block collection. -/
structure Around where
  /-- What belongs to the value stands at this column at least, or to
  the right of it. -/
  column : Nat
  /-- The value belongs to a key, so that its items may stand in the
  column of the key. -/
  keyed : Bool
  /-- A key may stand on the line of the value. -/
  keys : Bool

/-- A flow collection or a scalar of a block collection. -/
def blockAtom (fuel column : Nat) : Reader (Value × Text) := fun p =>
  if p.starts '[' || p.starts '\x7b' then flowValue fuel p else scalar false column p

/-- How reading a collection goes on behind a value that ended at `p`:
`q` is the next token. -/
inductive Sequel where
  /-- The collection is complete. -/
  | complete
  /-- One more entry follows in the column of the collection. -/
  | entry
  /-- What follows belongs nowhere. -/
  | misplaced

/-- What the next token means to a collection in the given column. -/
def sequel (column : Nat) (p q : Place) : Sequel :=
  if q.atEnd || (q.line != p.line && q.column < column) then .complete
  else if q.line == p.line || column < q.column then .misplaced
  else .entry

mutual

/-- The value at a place; nothing stands for null. -/
def blockValue : Nat → Around → Reader Value
  | 0, _, _ => none
  | fuel + 1, around, p =>
    let q := p.skip
    let sameLine := q.line == p.line
    let keys := around.keys || !sameLine
    let isItem := around.keyed && q.atDash && q.column + 1 == around.column
    if q.atEnd || (!sameLine && q.column < around.column && !isItem) then
      some (.null, p)
    else if q.atDash then
      if keys then (blockItems fuel q.column q).map fun (vs, r) => (.list vs, r)
      else none
    else match blockAtom fuel around.column q with
      | none => none
      | some ((v, _), r) =>
        let s := r.skip
        if s.atColon && s.line == r.line then
          if keys && s.line == q.line then
            (blockEntries fuel q.column [] q).map fun (es, t) => (.map es, t)
          else none
        else some (v, r)

/-- The items of a sequence whose dashes stand in a column. -/
def blockItems : Nat → Nat → Reader (List Value)
  | 0, _, _ => none
  | fuel + 1, column, p =>
    match blockValue fuel ⟨column + 1, false, true⟩ (p.move 1) with
    | none => none
    | some (v, q) =>
      let next := q.skip
      match sequel column q next with
      | .complete => some ([v], q)
      | .misplaced => none
      | .entry =>
        if next.atDash then (blockItems fuel column next).map fun (vs, r) => (v :: vs, r)
        else some ([v], q)

/-- The entries of a mapping whose keys stand in a column, after
others. -/
def blockEntries : Nat → Nat → List (String × Value) → Reader (List (String × Value))
  | 0, _, _, _ => none
  | fuel + 1, column, known, p =>
    match blockAtom fuel (column + 1) p with
    | none => none
    | some (item, behind) =>
      let colon := behind.skip
      match key? item with
      | none => none
      | some k =>
        if colon.atColon && colon.line == p.line then
          match blockValue fuel ⟨column + 1, true, false⟩ (colon.move 1) with
          | none => none
          | some (v, q) =>
            let es := Value.put k v known
            let next := q.skip
            match sequel column q next with
            | .complete => some (es, q)
            | .misplaced => none
            | .entry => blockEntries fuel column es next
        else none

end

-- ============================================================ documents

/-- A character that a document may hold. -/
def isAllowed (c : Char) : Bool :=
  let n := c.toNat
  n == 0x9 || n == 0xA || n == 0xD || (0x20 ≤ n && n ≤ 0x7E) || n == 0x85
    || (0xA0 ≤ n && n ≤ 0xFFFD) || 0x10000 ≤ n

/-- The value of a document; none if the text is not one. -/
def parse (cs : List Char) : Option Value :=
  let text := (if cs.head? == some '\uFEFF' then cs.drop 1 else cs).map fun c =>
    if c == '\x85' then '\n' else c
  if !text.all isAllowed then none
  else
    let first := (Place.mk text 0 0).skip
    let marked := first.atDivider '-'
    let start := if marked then first.move 3 else first
    match blockValue (4 * text.length + 8) ⟨0, false, !marked⟩ start with
    | none => none
    | some (v, q) =>
      let next := q.skip
      let rest := if next.atDivider '.' then (next.move 3).skip else next
      if rest.rest.isEmpty then some v else none

end Codemod.Yaml
