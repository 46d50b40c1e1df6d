/-
Unified diffs.

A hunk shows changes with up to three lines around them; changes with
more than six lines between them are in different hunks.
-/
import Codemod.Diff.Script

namespace Codemod.Diff

/-- The number of lines shown on either side of a change. -/
def margin : Nat := 3

/-- Changes that are shown together. -/
structure Hunk where
  /-- How many lines stand in front of it in the old text. -/
  oldStart : Nat
  /-- How many lines stand in front of it in the new text. -/
  newStart : Nat
  segments : List Segment

namespace Hunk

/-- The lines of the old text. -/
def old (h : Hunk) : List Line := h.segments.flatMap Segment.old

/-- The lines of the new text. -/
def new (h : Hunk) : List Line := h.segments.flatMap Segment.new

end Hunk

/-- The last lines of a list, at most so many. -/
def lastLines (n : Nat) (ls : List Line) : List Line := ls.drop (ls.length - n)

/-- Adds a segment to the hunk that is being collected. -/
def Hunk.add (h : Hunk) (s : Segment) : Hunk := { h with segments := h.segments ++ [s] }

/-- The hunks of the rest of a script that starts behind `i` and `j`
lines; `h` is the hunk that is being collected, if there is one. -/
def hunksFrom : Option Hunk → Nat → Nat → List Segment → List Hunk
  | h, _, _, [] => h.toList
  | h, i, j, .change o n :: rest =>
    let start := h.getD ⟨i, j, []⟩
    hunksFrom (some (start.add (.change o n))) (i + o.length) (j + n.length) rest
  | h, i, j, .same ls :: rest =>
    let i' := i + ls.length
    let j' := j + ls.length
    let shown := lastLines margin ls
    let next : Option Hunk :=
      if rest.isEmpty then none
      else some ⟨i' - shown.length, j' - shown.length, [.same shown]⟩
    match h with
    | none => hunksFrom next i' j' rest
    | some hunk =>
      if rest.isEmpty || 2 * margin < ls.length then
        hunk.add (.same (ls.take margin)) :: hunksFrom next i' j' rest
      else hunksFrom (some (hunk.add (.same ls))) i' j' rest

/-- The hunks of a script. -/
def hunks (ss : List Segment) : List Hunk :=
  hunksFrom none 0 0 ss

-- ============================================================== writing

/-- A range of lines: the first of them and their number, which is left
out if it is one. The first of no lines is the one in front. -/
def rangeText (start count : Nat) : String :=
  if count == 1 then toString (start + 1)
  else if count == 0 then toString start ++ ",0"
  else toString (start + 1) ++ "," ++ toString count

/-- Lines with a mark in front of each. -/
def marked (mark : Char) (ls : List Line) : Text := ls.flatMap (.scalar mark :: ·)

/-- A segment of a hunk. -/
def Segment.text : Segment → Text
  | .same ls => marked ' ' ls
  | .change o n => marked '-' o ++ marked '+' n

/-- A hunk behind the line that says where it stands. -/
def Hunk.text (h : Hunk) : Text :=
  Text.ofString ("@@ -" ++ rangeText h.oldStart h.old.length ++ " +"
    ++ rangeText h.newStart h.new.length ++ " @@\n")
    ++ h.segments.flatMap Segment.text

/-- The unified diff of two texts under a path; nothing if they have the
same lines. -/
def unified (path : String) (before after : Text) : Text :=
  match hunks (script (lines before) (lines after)) with
  | [] => []
  | hs => Text.ofString ("--- a/" ++ path ++ "\n+++ b/" ++ path ++ "\n")
    ++ hs.flatMap Hunk.text

end Codemod.Diff
