/-
The parser of whole source texts.

`Parse.run` ties the productions together. Each request costs one unit
of fuel; no chain of requests that reads nothing is longer than the
factor in `fuelFor`, so the fuel of a source suffices for it.

Main statement: `render_tree?`, a parse prints back as the text that was
parsed.
-/
import Codemod.Fault
import Codemod.Parse.Statement

namespace Codemod

namespace Parse

open Step

/-- The production for each goal. -/
def production {src : List Char} (go : Goal → Step src Unit) :
    Goal → Step src Unit
  | .statement => statement go
  | .statements => statements go
  | .caseBody => caseBody go
  | .cases => cases go
  | .block => block go
  | .declarators noIn => declarators go noIn
  | .expression noIn => expression go noIn
  | .sequence start noIn => sequence go start noIn
  | .assignment noIn => assignment go noIn
  | .binary level noIn => binary go level noIn
  | .operators start level noIn => operators go start level noIn
  | .unary => unary go
  | .access calls => access go calls
  | .accesses start calls => accesses go start calls
  | .arguments => arguments go
  | .elements holes => elements go holes
  | .properties => properties go
  | .members => members go
  | .parameters => parameters go
  | .parameterList => parameterList go
  | .target declared => target go declared
  | .targetWithDefault => targetWithDefault go
  | .patternProperties => patternProperties go
  | .patternElements => patternElements go
  | .templateParts => templateParts go
  | .function start declared => function go start declared
  | .classFrom start declared => classFrom go start declared
  | .method start => method go start
  | .importSpecifiers => importSpecifiers go
  | .exportSpecifiers => exportSpecifiers go

/-- Parses a goal with bounded nesting of requests. -/
def run {src : List Char} : Nat → Goal → Step src Unit
  | 0, _ => failure
  | fuel + 1, goal => production (run fuel) goal

/-- Fuel enough for a source. -/
def fuelFor (src : List Char) : Nat := 16 * (src.length + 2)

/-- The length of the line that names an interpreter; zero when the
source has none. -/
def hashBangLength : List Char → Nat
  | '#' :: '!' :: cs => 2 + runLength (· != '\n') cs
  | _ => 0

/-- Reads a whole source. -/
def program (src : List Char) : Step src Unit := do
  let n := hashBangLength src
  if 0 < n then adjoining Symbol.hashBangLine true none n
  run (fuelFor src) .statements
  require ((← peek).shape == .done)
  modify (·.flush)

/-- An object literal holds a name with a default value, which only a
pattern may. -/
def isUnfinishedPattern (n : Node) : Bool :=
  n.is .object && n.children.any (·.is .objectAssignmentPattern)

/-- The tree of a source text, without identities. -/
def tree? (src : List Char) : Option Node :=
  match (program src).run (Progress.start src) with
  | none => none
  | some (_, s) =>
    if s.close.walk.any isUnfinishedPattern then none else some s.close

theorem render_tree? {src : List Char} {n : Node} (h : tree? src = some n) :
    n.render = Text.ofChars src := by
  unfold tree? at h
  split at h
  · simp at h
  · split at h
    · simp at h
    · rw [← Option.some.inj h]
      exact Progress.render_close _

end Parse

/-- The tree of a source text. The identities number the nodes in source
order. -/
def parse (source : Text) : Except Fault Node :=
  match source.toChars? with
  | none => .error (.unencodable .utf8 source)
  | some cs =>
    match Parse.tree? cs with
    | none => .error .invalidScript
    | some n => .ok (n.renumber 0).1

end Codemod
