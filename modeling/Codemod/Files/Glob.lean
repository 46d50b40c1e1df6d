/-
Patterns for names.

A star stands for any characters, a question mark for one, and brackets
for one of a set; a bracket that is never closed stands for itself.
-/
namespace Codemod

/-- A set of characters: its ranges, each from a first to a last. -/
abbrev CharSet := List (Char × Char)

/-- A piece of a pattern. -/
inductive Glob.Piece where
  | literal (c : Char)
  /-- One character. -/
  | any
  /-- Any number of characters. -/
  | star
  /-- One character in the set, or one outside of it. -/
  | oneOf (negated : Bool) (set : CharSet)

namespace Glob

/-- Splits the inside of brackets at the dashes that form ranges. The
first part has `least` characters at least, each further one two, so
that no dash takes part in two ranges. -/
def parts : Nat → Nat → List Char → List (List Char)
  | 0, _, cs => [cs]
  | fuel + 1, least, cs =>
    let (kept, rest) := (cs.drop least).span (· != '-')
    match rest with
    | [] => [cs]
    | _ :: more => (cs.take least ++ kept) :: parts fuel 2 more

/-- The parts, an empty last one replaced by a dash behind the one in
front of it. -/
def closeParts : List (List Char) → List (List Char)
  | [] => []
  | [p] => [p]
  | [p, []] => [p ++ ['-']]
  | p :: ps => p :: closeParts ps

/-- Joins neighbours between which a range would be empty, from the last
to the first; the ends of such a range are dropped. -/
def dropEmptyRanges (ps : List (List Char)) : List (List Char) :=
  ps.foldr (fun p rest =>
    match rest with
    | [] => [p]
    | q :: more =>
      match p.getLast?, q.head? with
      | some a, some b => if b < a then (p.dropLast ++ q.drop 1) :: more else p :: rest
      | _, _ => p :: rest) []

/-- Single characters as ranges. -/
def singles (cs : List Char) : CharSet := cs.map fun c => (c, c)

/-- The set of parts, of which neighbours form ranges. -/
def setOf : List (List Char) → CharSet
  | [] => []
  | [p] => singles p
  | p :: q :: ps =>
    let range := match p.getLast?, q.head? with
      | some a, some b => [(a, b)]
      | _, _ => []
    singles p ++ range ++ setOf (q :: ps)

/-- The set inside brackets. -/
def charSet (cs : List Char) : CharSet :=
  setOf (dropEmptyRanges (closeParts (parts cs.length 1 cs)))

/-- The inside of brackets and what follows them. A closing bracket that
comes first belongs to the set. -/
def bracket? (cs : List Char) : Option (Bool × List Char × List Char) :=
  let negated := cs.head? == some '!'
  let inside := if negated then cs.drop 1 else cs
  let (first, rest) := match inside with
    | ']' :: more => ([']'], more)
    | _ => ([], inside)
  match rest.span (· != ']') with
  | (_, []) => none
  | (kept, _ :: behind) => some (negated, first ++ kept, behind)

/-- The pieces of a pattern. -/
def pieces : Nat → List Char → List Piece
  | 0, _ => []
  | _ + 1, [] => []
  | fuel + 1, c :: cs =>
    if c == '*' then .star :: pieces fuel cs
    else if c == '?' then .any :: pieces fuel cs
    else if c == '[' then
      match bracket? cs with
      | some (negated, inside, behind) =>
        .oneOf negated (charSet inside) :: pieces fuel behind
      | none => .literal c :: pieces fuel cs
    else .literal c :: pieces fuel cs

/-- The piece stands for the character. -/
def Piece.admits (c : Char) : Piece → Bool
  | .literal d => c == d
  | .any => true
  | .star => false
  | .oneOf negated set => negated != set.any fun (lo, hi) => lo ≤ c && c ≤ hi

/-- What may be left of a text behind a star: every end of it. -/
def ends : List Char → List (List Char)
  | [] => [[]]
  | c :: cs => (c :: cs) :: ends cs

/-- The pieces stand for the whole text. -/
def matchPieces : List Piece → List Char → Bool
  | [], cs => cs.isEmpty
  | .star :: ps, cs => (ends cs).any fun rest => matchPieces ps rest
  | _ :: _, [] => false
  | p :: ps, c :: cs => p.admits c && matchPieces ps cs

/-- A name fits a pattern. -/
def fits (pattern name : String) : Bool :=
  matchPieces (pieces pattern.length pattern.toList) name.toList

end Glob

end Codemod
