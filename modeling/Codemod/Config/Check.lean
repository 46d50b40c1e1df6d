/-
Checking configurations.

A document is checked before it is used. The first thing found wrong is
reported; keys that are not known are not looked at.
-/
import Codemod.Config.Settings

namespace Codemod.Config

/-- The groups that rules belong to. -/
def groupNames : List String := ["jquery", "legacy"]

/-- The sections of a configuration. -/
def sectionNames : List String := ["analysis", "rules", "processing"]

/-- Refuses a setting unless it passes a test. -/
def need (ok : Bool) (f : SettingFault) : Except Fault Unit :=
  if ok then .ok () else .error (.setting f)

/-- A list whose items all pass a test. -/
def isListOf (test : Value → Bool) : Value → Bool
  | .list vs => vs.all test
  | _ => false

/-- A text that is one of the given words. -/
def isNameIn (names : List String) : Value → Bool
  | .text t => t.isOneOf names
  | _ => false

/-- A text that is not empty. -/
def isWord : Value → Bool
  | .text t => !t.isEmpty
  | _ => false

/-- A text that starts with a point. -/
def isExtension : Value → Bool
  | .text (p :: _) => p.is '.'
  | _ => false

/-- A whole number above zero. -/
def isPositive (v : Value) : Bool := v.int?.any (0 < ·)

/-- Checks the value of a key that is present. -/
def checkKey (es : List (String × Value)) (key : String) (test : Value → Bool)
    (f : SettingFault) : Except Fault Unit :=
  match Value.field? key es with
  | some v => need (test v) f
  | none => .ok ()

/-- Null, or a list of words. -/
def isWordList : Value → Bool
  | .null => true
  | v => isListOf isWord v

/-- Checks what the analysis is told. -/
def checkAnalysis (es : List (String × Value)) : Except Fault Unit := do
  ["factory_names", "transformable_members", "extra_transformable_members"].forM fun key =>
    checkKey es key isWordList (.notWords key)
  checkKey es "factory_names" Value.isTruthy .noFactoryNames

/-- Checks which rules are run. -/
def checkRules (es : List (String × Value)) : Except Fault Unit := do
  checkKey es "enabled_groups" (isListOf (isNameIn groupNames)) .groups
  checkKey es "disabled_rules" (isListOf fun _ => true) .disabledRules
  checkKey es "max_passes" isPositive .maxPasses

/-- Checks which files are processed, and how. -/
def checkProcessing (es : List (String × Value)) : Except Fault Unit := do
  checkKey es "max_file_size" isPositive .maxFileSize
  checkKey es "jobs" isPositive .jobs
  checkKey es "strategy" (isNameIn (Strategy.all.map (·.name))) .strategy
  checkKey es "extensions" (isListOf isExtension) .extensions

/-- The entries of a section; one that is missing is empty. -/
def sectionEntries (es : List (String × Value)) (name : String) :
    List (String × Value) :=
  ((Value.field? name es).bind Value.entries?).getD []

/-- Checks the entries of a configuration. -/
def checkEntries (es : List (String × Value)) : Except Fault Unit := do
  sectionNames.forM fun name =>
    checkKey es name (·.entries?.isSome) (.sectionNoMapping name)
  checkAnalysis (sectionEntries es "analysis")
  checkRules (sectionEntries es "rules")
  checkProcessing (sectionEntries es "processing")

/-- The name of a section occurs in something that is no mapping, so
that the section is looked up there. -/
def mentionsSection : Value → Bool
  | .list vs => vs.any (isNameIn sectionNames)
  | .text t => sectionNames.any fun n => Text.occursIn (Text.ofString n) t
  | .map _ => false
  | _ => true

/-- Checks a configuration. -/
def check (v : Value) : Except Fault Unit :=
  match v with
  | .map es => checkEntries es
  | v => .error (if mentionsSection v then .unusableSetting else .unstructuredSetting)

/-- The settings of a configuration that has been checked. -/
def validated (v : Value) : Except Fault Settings := do
  check v
  Settings.ofValue v

/-- No section has a name that leads to something other than a setting
in every section. What is set under such a name is not looked at by the
check. -/
def isUnreserved (es : List (String × Value)) : Bool :=
  sectionNames.all fun name =>
    (sectionEntries es name).all fun (key, _) => !Settings.reservedKeys.contains key

/-- The settings of a configuration of which all has been checked that
can take the place of a setting. -/
def checked (v : Value) : Except Fault Settings := do
  if !isUnreserved (v.entries?.getD []) then throw .unusableSetting
  validated v

end Codemod.Config
