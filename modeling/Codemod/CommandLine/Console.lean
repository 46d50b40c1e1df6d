/-
What is printed for people.

A console drops the control characters that move the cursor, and fills
tabs up with spaces to the next multiple of eight columns.
-/
import Codemod.Batch.Outcome
import Codemod.Rule.Registry

namespace Codemod.CommandLine

-- ============================================================== console

/-- A control character that is not printed. -/
def isDropped (p : Point) : Bool := [7, 8, 11, 12, 13].contains p.code

/-- The distance between the places that tabs lead to. -/
def tabWidth : Nat := 8

/-- The text with spaces for tabs, from a column on. -/
def expandTabs : Nat → Text → Text
  | _, [] => []
  | column, p :: t =>
    if p.is '\n' then p :: expandTabs 0 t
    else if p.is '\t' then
      let width := tabWidth - column % tabWidth
      List.replicate width (.scalar ' ') ++ expandTabs (column + width) t
    else p :: expandTabs (column + 1) t

/-- What a console makes of a text. -/
def console (t : Text) : Text := expandTabs 0 (t.filter (!isDropped ·))

/-- A line. -/
def line (s : String) : Text := Text.ofString s ++ Text.ofString "\n"

/-- A line that says how something went. -/
def success (s : String) : Text := line ("✓ " ++ s)

/-- A line that says that something needs attention. -/
def warning (s : String) : Text := line ("⚠ " ++ s)

/-- A line that says what went wrong. -/
def failure (s : String) : Text := line ("✗ " ++ s)

/-- A line that adds something. -/
def note (s : String) : Text := line ("ℹ " ++ s)

/-- A rule as long as a text. -/
def underline (s : String) : Text := line (String.ofList (s.toList.map fun _ => '-'))

/-- The cells of a row. -/
def row (cells : List String) : String := " | ".intercalate cells

/-- A table with a title. -/
def table (title : String) (columns : List String) (rows : List (List String)) : Text :=
  line "" ++ line title ++ underline title ++ line (row columns) ++ underline (row columns)
    ++ rows.flatMap (fun cells => line (row cells)) ++ line ""

-- ============================================================== reports

/-- What a file that a run changes is called. -/
def changedLabel : Mode → String
  | .write => "rewritten"
  | .check => "would change"
  | .diff => "would change"

/-- What a status is called. -/
def statusLabel (mode : Mode) : FileStatus → String
  | .changed => changedLabel mode
  | s => s.name

/-- A diff under a line with its path. -/
def diffSection (r : FileResult) : Text :=
  let closing : Text := if r.diff.getLast?.any (·.is '\n') then [] else [.scalar '\n']
  line "" ++ line ("--- " ++ r.path ++ " ---") ++ r.diff ++ closing

/-- The row of a file. -/
def fileRow (mode : Mode) (r : FileResult) : List String :=
  [r.path, statusLabel mode r.status,
    if r.appliedRules.isEmpty then r.reason else ", ".intercalate r.appliedRules]

/-- The line that sums up a run. -/
def summaryLine (b : BatchResult) : Text :=
  let changed := (b.having .changed).length
  let failed := (b.having .failed).length
  let text := toString b.files.length ++ " file(s) processed, " ++ toString changed ++ " "
    ++ changedLabel b.mode ++ ", " ++ toString failed ++ " failed in 0.00s"
  if 0 < failed then failure text
  else if 0 < changed && b.mode != .write then warning text
  else success text

/-- The report of a run for people; files that are unchanged are shown
on demand. -/
def runReport (b : BatchResult) (showUnchanged : Bool) : Text :=
  let diffs := if b.mode == .diff then (b.having .changed).flatMap diffSection else []
  let rows := (b.files.filter fun r => showUnchanged || r.status != .unchanged).map
    (fileRow b.mode)
  let files := if rows.isEmpty then []
    else table "Nativize results" ["File", "Status", "Rules"] rows
  diffs ++ files ++ summaryLine b

/-- The list of rules for people. -/
def ruleTable (rules : List (RuleInfo × Bool)) : Text :=
  table "Rules" ["Rule", "Group", "Enabled", "Description"]
    (rules.map fun (r, enabled) =>
      [r.name, r.group, if enabled then "yes" else "no", r.description])

/-- The configuration for people. -/
def configReport (summary : Text) : Text :=
  line "" ++ line "=== Current Nativize Configuration ===" ++ line "" ++ summary ++ line ""

end Codemod.CommandLine
