/-
Paths.

A path is written as names with slashes between them. Empty names and
single points between the names say nothing and are left out; what is
left of an empty path is a single point.
-/
namespace Codemod

/-- Where a file or a folder is looked for. -/
structure Path where
  /-- The slashes in front: none for a path from the working folder. -/
  root : String
  /-- The names on the way. -/
  names : List String
deriving DecidableEq

namespace Path

/-- The slashes that a path starts with: two stay two, more count as
one. -/
def rootOf (s : String) : String :=
  match s.toList with
  | '/' :: '/' :: '/' :: _ => "/"
  | '/' :: '/' :: _ => "//"
  | '/' :: _ => "/"
  | _ => ""

/-- What stands between the slashes of a string. -/
def split (s : String) : List String := (s.toList.splitOn '/').map String.ofList

/-- The path that a string spells. -/
def ofString (s : String) : Path :=
  ⟨rootOf s, (split s).filter fun n => n != "" && n != "."⟩

/-- How a path is written. -/
def toString (p : Path) : String :=
  if p.root.isEmpty && p.names.isEmpty then "."
  else p.root ++ "/".intercalate p.names

/-- The path of something inside a folder. -/
def within (p : Path) (names : List String) : Path := { p with names := p.names ++ names }

end Path

end Codemod
