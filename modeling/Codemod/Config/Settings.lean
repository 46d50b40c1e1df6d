/-
Settings.

A setting holds the value that the configuration gives it, whatever kind
of value that is; using a setting whose value is of the wrong kind is a
fault. A checked configuration (`Config/Check.lean`) has no such values
in the places that are checked.
-/
import Codemod.Document.Value
import Codemod.Engine

namespace Codemod

/-- How the files of a batch are processed. -/
inductive Strategy where
  /-- One after the other. -/
  | sequential
  /-- Several at a time. -/
  | parallel
deriving DecidableEq

namespace Strategy

/-- All strategies. -/
def all : List Strategy := [.sequential, .parallel]

/-- The name of a strategy. -/
def name : Strategy → String
  | .sequential => "sequential"
  | .parallel => "parallel"

/-- The strategy of a name. -/
def ofName? (t : Text) : Option Strategy := all.find? fun s => Text.ofString s.name == t

end Strategy

/-- What is set as the strategy. -/
inductive StrategySetting where
  | known (s : Strategy)
  /-- Something that is no text and hence no name. -/
  | other (v : Value)

/-- A setting, or nothing where all that its section holds has been
replaced by something without it. -/
abbrev Slot := Option Value

/-- What the analysis is told. -/
structure AnalysisSettings where
  factoryNames : Slot := some (.ofStrings ["$", "jQuery"])
  /-- Null stands for the members of the library. -/
  transformableMembers : Value := .null
  extraTransformableMembers : Slot := some (.list [])
  /-- The name of the set of all members has been set itself, so that
  the set cannot be had. -/
  hidesMembers : Bool := false
  /-- What has been set in the place of the list of the settings. -/
  listing : Option Value := none

/-- Which rules are run. -/
structure RuleSettings where
  enabledGroups : Slot := some (.ofStrings ["jquery", "legacy"])
  disabledRules : Slot := some (.list [])
  maxPasses : Value := .int Engine.defaultMaxPasses
  /-- What has been set in the place of the list of the settings. -/
  listing : Option Value := none

/-- Which files are processed, and how. -/
structure ProcessingSettings where
  extensions : Slot := some (.ofStrings [".js", ".mjs", ".cjs", ".jsx"])
  excludedPatterns : Slot :=
    some (.ofStrings ["node_modules", ".git", "*.min.js", "dist", "build", "vendor"])
  maxFileSize : Value := .int (1024 * 1024)
  jobs : Value := .int 1
  strategy : StrategySetting := .known .sequential
  /-- What has been set in the place of the list of the settings. -/
  listing : Option Value := none

/-- A configuration. -/
structure Settings where
  analysis : AnalysisSettings := {}
  rules : RuleSettings := {}
  processing : ProcessingSettings := {}

namespace Settings

/-- The configuration that sets nothing. -/
def default : Settings := {}

-- ================================================= reading and writing

/-- A section of a document; one that is missing is empty. -/
def sectionOf (name : String) (es : List (String × Value)) :
    Except Fault (List (String × Value)) :=
  match Value.field? name es with
  | none => .ok []
  | some (.map inner) => .ok inner
  | some _ => .error .unstructuredSetting

/-- The name of the set of all members. -/
def membersKey : String := "effective_transformable_members"

/-- The name of the mapping that holds all of a section. -/
def mappingKey : String := "__dict__"

/-- The name of the list of the settings of a section. -/
def listingKey : String := "__dataclass_fields__"

/-- The name of what a section is, which no value can be. -/
def classKey : String := "__class__"

/-- The name of the references to a section, which cannot be set. -/
def referencesKey : String := "__weakref__"

/-- The names that lead to something in every section and are no
settings. -/
def reservedKeys : List String := [mappingKey, listingKey, classKey, referencesKey]

/-- Whether a name can be set to a value in a section. -/
def checkAssignable (key : String) (v : Value) : Except Fault Unit :=
  if key == classKey then .error .unusableSetting
  else if key == referencesKey then .error .unstructuredSetting
  else if key == mappingKey && v.entries?.isNone then .error .unusableSetting
  else .ok ()

/-- Whether a name can be set to a value in the section of processing,
where a text has to name a strategy. -/
def checkProcessable (key : String) (v : Value) : Except Fault Unit :=
  match key == "strategy", v with
  | true, .text t =>
    if (Strategy.ofName? t).isSome then .ok () else .error (.unknownStrategy t.display)
  | _, _ => checkAssignable key v

/-- What the entries of a section amount to. -/
structure Holdings where
  /-- The mapping that has taken the place of all the section held, if
  there is one. -/
  base : Option (List (String × Value))
  /-- The entries behind it. -/
  entries : List (String × Value)

namespace Holdings

/-- What the entries of a section amount to: the last mapping that is
set for all of it leaves nothing of what stands in front. -/
def ofEntries : List (String × Value) → Holdings
  | [] => ⟨none, []⟩
  | (k, v) :: es =>
    let behind := ofEntries es
    if behind.base.isSome then behind
    else match if k == mappingKey then v.entries? else none with
      | some inner => ⟨some inner, behind.entries⟩
      | none => ⟨none, (k, v) :: behind.entries⟩

/-- The setting under a name that the section itself has. -/
def own? (h : Holdings) (key : String) (unset : Slot) : Slot :=
  match h.base with
  | none => (Value.field? key h.entries).or unset
  | some base => (Value.field? key base).map (Value.field? key h.entries).getD

/-- The value under a name, if it has been set. -/
def set? (h : Holdings) (key : String) : Option Value :=
  (Value.field? key h.entries).or (h.base.bind (Value.field? key))

/-- The value under a name that all sections of the kind share. -/
def shared (h : Holdings) (key : String) (unset : Value) : Value :=
  (h.set? key).getD unset

/-- The strategy that is set. Only a name that is set as such is read as
one. -/
def strategy (h : Holdings) : StrategySetting :=
  match Value.field? "strategy" h.entries with
  | some (.text t) => ((Strategy.ofName? t).map .known).getD (.other (.text t))
  | some v => .other v
  | none => ((h.set? "strategy").map .other).getD (.known .sequential)

end Holdings

/-- The settings that sections amount to. -/
def ofHoldings (a r p : Holdings) : Settings :=
  let unset : Settings := default
  { analysis := {
      factoryNames := a.own? "factory_names" unset.analysis.factoryNames
      transformableMembers :=
        a.shared "transformable_members" unset.analysis.transformableMembers
      extraTransformableMembers :=
        a.own? "extra_transformable_members" unset.analysis.extraTransformableMembers
      hidesMembers := (a.set? membersKey).isSome
      listing := a.set? listingKey }
    rules := {
      enabledGroups := r.own? "enabled_groups" unset.rules.enabledGroups
      disabledRules := r.own? "disabled_rules" unset.rules.disabledRules
      maxPasses := r.shared "max_passes" unset.rules.maxPasses
      listing := r.set? listingKey }
    processing := {
      extensions := p.own? "extensions" unset.processing.extensions
      excludedPatterns := p.own? "excluded_patterns" unset.processing.excludedPatterns
      maxFileSize := p.shared "max_file_size" unset.processing.maxFileSize
      jobs := p.shared "jobs" unset.processing.jobs
      strategy := p.strategy
      listing := p.set? listingKey } }

/-- The settings of a document. Keys that are not known are passed
over. -/
def ofValue (v : Value) : Except Fault Settings := do
  let some es := v.entries? | throw .unstructuredSetting
  let a ← sectionOf "analysis" es
  a.forM fun (k, v) => checkAssignable k v
  let r ← sectionOf "rules" es
  r.forM fun (k, v) => checkAssignable k v
  let p ← sectionOf "processing" es
  p.forM fun (k, v) => checkProcessable k v
  return ofHoldings (.ofEntries a) (.ofEntries r) (.ofEntries p)

/-- The name of the strategy that is set. -/
def strategyName (s : Settings) : Except Fault String :=
  match s.processing.strategy with
  | .known k => .ok k.name
  | .other _ => .error .unstructuredSetting

/-- The value of a setting, which has to be there. -/
def held : Slot → Except Fault Value
  | some v => .ok v
  | none => .error .unstructuredSetting

/-- The entries of a section: all its settings, unless the list of them
has been replaced. -/
def sectionDocument (listing : Option Value) (slots : List (String × Slot)) :
    Except Fault (List (String × Value)) :=
  match listing with
  | none => slots.mapM fun (key, slot) => (held slot).map (key, ·)
  | some (.map []) => .ok []
  | some _ => .error .unstructuredSetting

/-- The document of settings. -/
def toValue (s : Settings) : Except Fault Value := do
  let a ← sectionDocument s.analysis.listing [
    ("factory_names", s.analysis.factoryNames),
    ("transformable_members", some s.analysis.transformableMembers),
    ("extra_transformable_members", s.analysis.extraTransformableMembers)]
  let r ← sectionDocument s.rules.listing [
    ("enabled_groups", s.rules.enabledGroups),
    ("disabled_rules", s.rules.disabledRules),
    ("max_passes", some s.rules.maxPasses)]
  let p ← sectionDocument s.processing.listing [
    ("extensions", s.processing.extensions),
    ("excluded_patterns", s.processing.excludedPatterns),
    ("max_file_size", some s.processing.maxFileSize),
    ("jobs", some s.processing.jobs)]
  let strategy ← s.strategyName
  return .map [("analysis", .map a), ("rules", .map r),
    ("processing", .map (p ++ [("strategy", .ofString strategy)]))]

-- ================================================================ using

/-- The parts of a value that is used as a set. -/
def elements (v : Value) : Except Fault (List Value) :=
  match v.parts? with
  | some vs => if vs.all Value.isSimple then .ok vs else .error .unusableSetting
  | none => .error .unusableSetting

/-- The members that a wrapper and its element have in common. -/
def members (s : Settings) : Except Fault (List Value) := do
  if s.analysis.hidesMembers then throw .unusableSetting
  let base ← match s.analysis.transformableMembers with
    | .null => pure (defaultTransformableMembers.map .text)
    | v => elements v
  return base ++ (← elements (← held s.analysis.extraTransformableMembers))

/-- The members in order, each once. -/
def sortedMembers (s : Settings) : Except Fault (List Text) := do
  match (← s.members).mapM Value.text? with
  | some ts => return Text.sortedOnce ts
  | none => throw .unusableSetting

/-- The rules that are enabled. -/
def enabledRules (s : Settings) : Except Fault (List Rule) := do
  let groups ← held s.rules.enabledGroups
  let disabled := (← elements (← held s.rules.disabledRules)).map fun v => v.spoken.display
  match groups with
  | .null => Registry.builtin.select none disabled
  | v =>
    let _ ← Registry.builtin.select none disabled
    match (← elements v).mapM Value.text? with
    | some ts => Registry.builtin.select (some (ts.map Text.display)) disabled
    | none => throw .unusableSetting

/-- What the rules are told. -/
def context (s : Settings) : Except Fault RuleContext := do
  let names ← elements (← held s.analysis.factoryNames)
  let members ← s.members
  return ⟨names.filterMap Value.text?, members.filterMap Value.text?⟩

/-- The rules with what they are told, the number of passes being
positive. -/
def selection (s : Settings) : Except Fault (List Rule × RuleContext) := do
  let rules ← s.enabledRules
  let context ← s.context
  match s.rules.maxPasses.floor? with
  | none => throw .unusableSetting
  | some n =>
    if n < 0 || (s.rules.maxPasses.int?).any (· ≤ 0) then throw .noPasses
    return (rules, context)

/-- The engine that the settings describe. -/
def engine (s : Settings) : Except Fault Engine := do
  let (rules, context) ← s.selection
  match s.rules.maxPasses.int? with
  | some n => Engine.make rules context n
  | none => throw .unusableSetting

/-- Transforms a text. -/
def transform (s : Settings) (code : Text) : Except Fault TransformResult := do
  (← s.engine).run code

/-- The number of passes of a run: one that did not converge has made as
many as are set. -/
def passesOf (s : Settings) (r : TransformResult) : Value :=
  if r.converged then .int r.passes else s.rules.maxPasses

/-- All rules, and whether each is enabled. -/
def ruleList (s : Settings) : Except Fault (List (RuleInfo × Bool)) := do
  let (rules, _) ← s.selection
  return Registry.builtin.rules.map fun r =>
    (r.toRuleInfo, rules.any (·.name == r.name))

-- ============================================================== summary

/-- Texts with commas between them. -/
def listed (v : Value) : Except Fault Text :=
  match v.texts? with
  | some ts => .ok (Text.joinWith ", " ts)
  | none => .error .unusableSetting

/-- The number of parts of a setting. -/
def counted (v : Value) : Except Fault Text :=
  match v.size? with
  | some n => .ok (toString n)
  | none => .error .unusableSetting

/-- The lines that describe settings. -/
def summary (s : Settings) : Except Fault Text := do
  let members ← s.sortedMembers
  let line (label : String) (t : Text) : Text :=
    Text.ofString ("  - " ++ label ++ ": ") ++ t ++ Text.ofString "\n"
  let memberText := Text.ofString (toString members.length ++ " (")
    ++ Text.joinWith ", " members ++ Text.ofString ")"
  let names ← listed (← held s.analysis.factoryNames)
  let groups ← listed (← held s.rules.enabledGroups)
  let disabled ← counted (← held s.rules.disabledRules)
  let extensions ← listed (← held s.processing.extensions)
  let patterns ← counted (← held s.processing.excludedPatterns)
  let strategy ← s.strategyName
  return Text.ofString "Nativize Configuration Summary:\nAnalysis:\n"
    ++ line "Factory names" names
    ++ line "Transformable members" memberText
    ++ Text.ofString "\nRules:\n"
    ++ line "Enabled groups" groups
    ++ line "Disabled rules" (disabled ++ Text.ofString " rules")
    ++ line "Max passes" s.rules.maxPasses.spoken
    ++ Text.ofString "\nProcessing:\n"
    ++ line "Extensions" extensions
    ++ line "Excluded patterns" (patterns ++ Text.ofString " patterns")
    ++ line "Max file size" (s.processing.maxFileSize.spoken ++ Text.ofString " bytes")
    ++ line "Jobs" s.processing.jobs.spoken
    ++ line "Strategy" strategy

end Settings

end Codemod
