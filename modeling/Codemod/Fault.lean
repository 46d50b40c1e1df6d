/-
What can go wrong.

Each fault is a cause; `Fault.message` is its wording.
-/
import Codemod.Text.Quoted

namespace Codemod

/-- An encoded form of text. -/
inductive Encoding where
  /-- Bytes, one to four for each character. -/
  | utf8
  /-- Units of sixteen bits, one or two for each character. -/
  | utf16
deriving DecidableEq

/-- Why bytes are not the encoded form of a text. -/
inductive Misencoding where
  /-- No character starts with this byte. -/
  | start
  /-- A byte inside a character is not one that continues it. -/
  | continuation
  /-- The bytes end inside a character. -/
  | ending
deriving DecidableEq

/-- Why a file cannot be used. -/
inductive FileFault where
  | missing
  | isDirectory
  /-- A part of the path in front of the name is a file. -/
  | notDirectory
deriving DecidableEq

/-- What is wrong with a configuration. -/
inductive SettingFault where
  /-- The file named does not exist. -/
  | noFile (path : String)
  | unreadable (cause : FileFault) (path : String)
  | unwritable (cause : FileFault) (path : String)
  /-- The file is not in its format. -/
  | malformed
  /-- The file holds something else than a mapping. -/
  | noMapping
  /-- A section is something else than a mapping. -/
  | sectionNoMapping (name : String)
  /-- A setting is something else than a list of non-empty strings. -/
  | notWords (key : String)
  | noFactoryNames
  | groups
  | disabledRules
  | maxPasses
  | maxFileSize
  | jobs
  | strategy
  | extensions
deriving DecidableEq

/-- Why an operation failed. -/
inductive Fault where
  /-- The text is not in the grammar. -/
  | invalidScript
  /-- A surrogate stands alone, so the text has no encoded form. -/
  | unencodable (form : Encoding) (text : Text)
  /-- The bytes from `first` to `last` are no encoded text; `byte` is the
  first of them. -/
  | undecodable (reason : Misencoding) (byte first last : Nat)
  /-- An escape names a number that is far too large for a code point. -/
  | oversizedEscape
  /-- A number literal is too long to be read. -/
  | tooManyDigits (count : Nat)
  /-- A number is too long to be written. -/
  | numberTooLong
  /-- A text of digits that are not decimal digits is no number. -/
  | notDecimal (text : Text)
  /-- Only a node that has a parent can be replaced. -/
  | replacesDetached
  /-- A node cannot be replaced by itself. -/
  | replacesItself
  /-- No rule has this name. -/
  | unknownRule (name : String)
  /-- No rule belongs to these groups. -/
  | unknownGroups (names : List String)
  /-- A rule needs a name. -/
  | unnamedRule
  /-- Two rules cannot share a name. -/
  | duplicateRule (name : String)
  /-- At least one pass has to be allowed. -/
  | noPasses
  /-- A selector picks nothing. -/
  | noSuchNode
  /-- No node has been kept under this name. -/
  | noSuchMark
  /-- A recipe does not say what to build. -/
  | noSuchForm
  /-- Neither a file nor a directory is there. -/
  | noSuchPath (path : String)
  | file (cause : FileFault) (path : String)
  | setting (cause : SettingFault)
  /-- No strategy has this name. -/
  | unknownStrategy (name : String)
  /-- A setting is of a kind that its use does not admit. -/
  | unusableSetting
  /-- Something else than a mapping stands where settings are looked
  up. -/
  | unstructuredSetting
deriving DecidableEq

-- ============================================================== wording

/-- What the operating system says of a file. -/
def FileFault.message (path : String) : FileFault → String
  | .missing => "[Errno 2] No such file or directory: " ++ Text.quote path
  | .isDirectory => "[Errno 21] Is a directory: " ++ Text.quote path
  | .notDirectory => "[Errno 20] Not a directory: " ++ Text.quote path

/-- The wording of a fault in a configuration. -/
def SettingFault.message : SettingFault → String
  | .noFile path => "Configuration file not found: " ++ path
  | .unreadable f path => "Error reading configuration file: " ++ f.message path
  | .unwritable f path => "Error saving configuration file: " ++ f.message path
  | .malformed => "Invalid configuration file format"
  | .noMapping => "Configuration file must contain a mapping"
  | .sectionNoMapping name => name ++ " must be a mapping"
  | .notWords key => key ++ " must be a list of non-empty strings"
  | .noFactoryNames => "factory_names must not be empty"
  | .groups => "enabled_groups must be a subset of: ['jquery', 'legacy']"
  | .disabledRules => "disabled_rules must be a list"
  | .maxPasses => "max_passes must be a positive integer"
  | .maxFileSize => "max_file_size must be positive"
  | .jobs => "jobs must be a positive integer"
  | .strategy => "strategy must be one of: ['sequential', 'parallel']"
  | .extensions => "extensions must be a list like ['.js', '.mjs']"

/-- The name of an encoding. -/
def Encoding.name : Encoding → String
  | .utf8 => "utf-8"
  | .utf16 => "utf-16-le"

/-- The wording of a misencoding. -/
def Misencoding.message : Misencoding → String
  | .start => "invalid start byte"
  | .continuation => "invalid continuation byte"
  | .ending => "unexpected end of data"

/-- The first surrogates of a text: the position of the first of them,
its number, and how many follow one another. -/
def firstSurrogates : Nat → Text → Option (Nat × Nat × Nat)
  | _, [] => none
  | i, .scalar _ :: t => firstSurrogates (i + 1) t
  | i, .surrogate n :: t =>
    let more := t.takeWhile fun
      | .surrogate _ => true
      | .scalar _ => false
    some (i, 0xD800 + n.val, more.length + 1)

/-- What an encoder says of a text with surrogates. Bytes are refused
for a whole run of surrogates, units for the first. -/
def unencodableMessage (form : Encoding) (t : Text) : String :=
  let subject := "'" ++ form.name ++ "' codec can't encode character"
  match firstSurrogates 0 t with
  | none => subject
  | some (i, n, count) =>
    let place := if form == .utf8 && count > 1 then
        "s in position " ++ toString i ++ "-" ++ toString (i + count - 1)
      else
        " '" ++ (Text.numericEscape n).display ++ "' in position " ++ toString i
    subject ++ place ++ ": surrogates not allowed"

/-- What a decoder says of bytes that are no text. -/
def undecodableMessage (reason : Misencoding) (byte first last : Nat) : String :=
  let place := if first == last then
      " 0x" ++ String.ofList (Text.hexText 2 byte) ++ " in position " ++ toString first
    else "s in position " ++ toString first ++ "-" ++ toString last
  "'utf-8' codec can't decode byte" ++ place ++ ": " ++ reason.message

/-- The advice on numbers that are too long. -/
def digitAdvice : String :=
  "; use sys.set_int_max_str_digits() to increase the limit"

/-- The wording of a fault. -/
def Fault.message : Fault → String
  | .invalidScript => "Invalid JavaScript"
  | .unencodable form t => unencodableMessage form t
  | .undecodable reason byte first last => undecodableMessage reason byte first last
  | .oversizedEscape => "Python int too large to convert to C int"
  | .tooManyDigits n =>
    "Exceeds the limit (4300 digits) for integer string conversion: value has "
      ++ toString n ++ " digits" ++ digitAdvice
  | .numberTooLong =>
    "Exceeds the limit (4300 digits) for integer string conversion" ++ digitAdvice
  | .notDecimal t =>
    "invalid literal for int() with base 10: " ++ (Text.quoted t).display
  | .replacesDetached => "cannot replace a detached node"
  | .replacesItself => "node is not a child of its recorded parent"
  | .unknownRule name => "Unknown rule: " ++ name
  | .unknownGroups names => "Unknown rule group(s): " ++ ", ".intercalate names
  | .unnamedRule => "Rule name must be non-empty"
  | .duplicateRule name => "Rule already registered: " ++ name
  | .noPasses => "max_passes must be positive"
  | .noSuchNode => "no such node"
  | .noSuchMark => "no such ref"
  | .noSuchForm => "no such builder"
  | .noSuchPath path => "Path does not exist: " ++ path
  | .file f path => f.message path
  | .setting f => f.message
  | .unknownStrategy name => Text.quote name ++ " is not a valid ProcessingStrategy"
  | .unusableSetting => "a setting cannot be used as it is"
  | .unstructuredSetting => "a setting is not a mapping"

end Codemod
