/-
Settings in the environment.

A variable that is not set or empty sets nothing. Lists are written with
commas, numbers in decimal digits of any script; a number that cannot be
read sets nothing either.
-/
import Codemod.Document.Value
import Codemod.Text.Class

namespace Codemod.Config

/-- The variables of the environment. -/
abbrev Environment := List (String × String)

/-- A variable that is set and not empty. -/
def given? (env : Environment) (name : String) : Option Text :=
  match env.lookup name with
  | some s => if s.isEmpty then none else some (Text.ofString s)
  | none => none

/-- The items of a list that are not blank, without the white space
around them. -/
def items (t : Text) : List Text :=
  ((Text.splitAtPoint (.scalar ',') t).map Text.strip).filter (!·.isEmpty)

/-- The list that a variable holds; a list of blanks is none. -/
def listSetting? (env : Environment) (name : String) : Option Value :=
  match (given? env name).map items with
  | some (t :: ts) => some (.list ((t :: ts).map .text))
  | _ => none

/-- The digits of a number with single underscores between some of
them. -/
def digitValues? : Text → Option (List Nat)
  | [] => none
  | [p] => p.decimal?.map ([·])
  | p :: q :: t =>
    match p.decimal? with
    | none => none
    | some d =>
      if q.is '_' then (digitValues? t).map (d :: ·)
      else (digitValues? (q :: t)).map (d :: ·)

/-- The longest number that is read, in digits. -/
def maxDigits : Nat := 4300

/-- White space around a number. The separators of files, groups,
records and units do not count. -/
def isMargin (p : Point) : Bool := p.isBlank && !(0x1C ≤ p.code && p.code ≤ 0x1F)

/-- The text without the white space around a number. -/
def withoutMargin (t : Text) : Text :=
  ((t.dropWhile isMargin).reverse.dropWhile isMargin).reverse

/-- The whole number that a text spells, with white space around it and
a sign in front of it or without. -/
def wholeNumber? (t : Text) : Option Int :=
  let (negative, digits) := match withoutMargin t with
    | [] => (false, [])
    | p :: rest =>
      if p.is '-' then (true, rest) else if p.is '+' then (false, rest) else (false, p :: rest)
  match digitValues? digits with
  | none => none
  | some ds =>
    if maxDigits < ds.length then none
    else
      let n := Int.ofNat (ds.foldl (fun k d => k * 10 + d) 0)
      some (if negative then -n else n)

/-- The number that a variable holds. -/
def numberSetting? (env : Environment) (name : String) : Option Value :=
  ((given? env name).bind wholeNumber?).map .int

/-- A section of the settings that are there. -/
def settingSection (name : String) (settings : List (String × Option Value)) :
    List (String × Value) :=
  match settings.filterMap fun (k, v) => v.map (k, ·) with
  | [] => []
  | es => [(name, .map es)]

/-- The configuration in the environment. -/
def ofEnvironment (env : Environment) : List (String × Value) :=
  settingSection "analysis" [("factory_names", listSetting? env "NATIVIZE_FACTORY_NAMES")]
    ++ settingSection "rules" [
      ("enabled_groups", listSetting? env "NATIVIZE_ENABLED_GROUPS"),
      ("disabled_rules", listSetting? env "NATIVIZE_DISABLED_RULES"),
      ("max_passes", numberSetting? env "NATIVIZE_MAX_PASSES")]
    ++ settingSection "processing" [
      ("jobs", numberSetting? env "NATIVIZE_JOBS"),
      ("max_file_size", numberSetting? env "NATIVIZE_MAX_FILE_SIZE")]

end Codemod.Config
