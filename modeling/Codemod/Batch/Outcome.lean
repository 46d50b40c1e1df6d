/-
What becomes of files.
-/
import Codemod.Document.Value
import Codemod.Text.Point

namespace Codemod

/-- What is done with a file that a run changes. -/
inductive Mode where
  /-- The file is written. -/
  | write
  /-- Nothing. -/
  | check
  /-- The changes are shown. -/
  | diff
deriving DecidableEq

namespace Mode

/-- The name of a mode. -/
def name : Mode → String
  | .write => "write"
  | .check => "check"
  | .diff => "diff"

/-- The mode of a name. -/
def ofName? (s : String) : Option Mode := [write, check, diff].find? (·.name == s)

end Mode

/-- What became of a file. -/
inductive FileStatus where
  | unchanged
  | changed
  | skipped
  | failed
deriving DecidableEq

/-- The name of a status. -/
def FileStatus.name : FileStatus → String
  | .unchanged => "unchanged"
  | .changed => "changed"
  | .skipped => "skipped"
  | .failed => "failed"

/-- The result for one file. -/
structure FileResult where
  path : String
  status : FileStatus
  appliedRules : List String := []
  /-- The changes, where they are shown. -/
  diff : Text := []
  /-- Why the file was skipped or has failed. -/
  reason : String := ""

/-- The results of a run. -/
structure BatchResult where
  mode : Mode
  /-- The results, in the order of the paths. -/
  files : List FileResult

namespace BatchResult

/-- The results with a status. -/
def having (b : BatchResult) (status : FileStatus) : List FileResult :=
  b.files.filter (·.status == status)

/-- No file has failed. -/
def succeeded (b : BatchResult) : Bool := (b.having .failed).isEmpty

/-- Each applied rule with the number of files it was applied to, in the
order of the names. -/
def ruleCounts (b : BatchResult) : List (String × Nat) :=
  let names := (b.having .changed).flatMap (·.appliedRules)
  (names.eraseDups.mergeSort fun x y => !(y < x)).map fun name => (name, names.count name)

end BatchResult

-- ============================================================== reports

/-- The entry of a report for one file. -/
def FileResult.toValue (r : FileResult) : Value :=
  .map ([("path", .ofString r.path),
      ("status", .ofString r.status.name),
      ("applied_rules", .ofStrings r.appliedRules)]
    ++ (if r.reason.isEmpty then [] else [("error", .ofString r.reason)])
    ++ (if r.diff.isEmpty then [] else [("diff", .text r.diff)]))

/-- The report of a run. -/
def BatchResult.report (b : BatchResult) : Value :=
  .map [("mode", .ofString b.mode.name),
    ("success", .bool b.succeeded),
    ("files_processed", .int b.files.length),
    ("files_changed", .int (b.having .changed).length),
    ("files_failed", .int (b.having .failed).length),
    ("files", .list (b.files.map FileResult.toValue)),
    ("rules", .map (b.ruleCounts.map fun (name, n) => (name, .int n)))]

end Codemod
