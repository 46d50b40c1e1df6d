/-
Carrying out a command line.

The exit code is zero for success, one if files have failed (or, for a
check, would change), and two if the command line or the configuration
cannot be used.
-/
import Codemod.Batch.Run
import Codemod.CommandLine.Console
import Codemod.CommandLine.Invocation

namespace Codemod.CommandLine

/-- What is printed. -/
inductive Printed where
  | nothing
  /-- The help on how to use the program. -/
  | help
  /-- Text for people. -/
  | text (t : Text)
  /-- A document for programs. -/
  | document (v : Value)

/-- What carrying out a command line leaves behind. -/
structure Outcome where
  exitCode : Nat
  printed : Printed
  store : Store

/-- The version of the program. -/
def version : String := "nativize 0.1.0"

/-- A fault that is reported in words; any other one ends the program
abruptly. -/
def isReported : Fault → Bool
  | .setting _ => true
  | .noSuchPath _ => true
  | .unknownRule _ => true
  | .unknownGroups _ => true
  | .invalidScript => true
  | _ => false

-- ============================================================ overrides

/-- The values without repetitions, each at its first place. -/
def distinct (vs : List Value) : List Value :=
  vs.foldl (fun seen v => if seen.any v.same then seen else seen ++ [v]) []

/-- The groups that are enabled after the command line has had its
say. -/
def enabledGroups (c : RuleChoice) (slot : Slot) : Except Fault Slot :=
  let chosen := if c.only.isEmpty then slot else some (.ofStrings (firstOccurrences c.only))
  if !c.noJquery then .ok chosen
  else match chosen with
    | none => .error .unstructuredSetting
    | some v =>
      match v.parts? with
      | some vs => .ok (some (.list (vs.filter fun g => !g.same (.ofString "jquery"))))
      | none => .error .unusableSetting

/-- The rules that are disabled after the command line has had its
say. -/
def disabledRules (c : RuleChoice) (slot : Slot) : Except Fault Slot :=
  if c.disable.isEmpty then .ok slot
  else match slot with
    | none => .error .unstructuredSetting
    | some (.list vs) =>
      let all := vs ++ c.disable.map .ofString
      if all.all Value.isSimple then .ok (some (.list (distinct all)))
      else .error .unusableSetting
    | some _ => .error .unusableSetting

/-- The processing settings for a number of jobs. -/
def withJobs (jobs : Option Int) (p : ProcessingSettings) : ProcessingSettings :=
  match jobs with
  | none => p
  | some n =>
    { p with jobs := .int n, strategy := .known (if 1 < n then .parallel else .sequential) }

/-- The settings after the command line has had its say, checked
again. -/
def override (s : Settings) (c : RuleChoice) (jobs : Option Int) : Except Fault Settings := do
  let enabled ← enabledGroups c s.rules.enabledGroups
  let disabled ← disabledRules c s.rules.disabledRules
  let rules := { s.rules with enabledGroups := enabled, disabledRules := disabled }
  let settings := { s with rules := rules, processing := withJobs jobs s.processing }
  Config.check (← settings.toValue)
  return settings

-- ============================================================= commands

/-- The exit code of a run. -/
def exitCodeOf (b : BatchResult) : Nat :=
  if !b.succeeded || (b.mode == .check && !(b.having .changed).isEmpty) then 1 else 0

/-- The list of rules for programs. -/
def ruleDocument (rules : List (RuleInfo × Bool)) : Value :=
  .list (rules.map fun (r, enabled) => .map [("name", .ofString r.name),
    ("group", .ofString r.group), ("description", .ofString r.description),
    ("enabled", .bool enabled)])

/-- Processes files. -/
def processFiles (store : Store) (s : Settings) (mode : Mode) (paths : List String)
    (c : RuleChoice) (jobs : Option Int) : Store × Except Fault BatchResult :=
  match (override s c jobs).bind fun t => t.engine.map fun _ => t with
  | .error f => (store, .error f)
  | .ok t => Batch.run store mode t paths

/-- Carries out a command with the settings that were loaded. -/
def perform (store : Store) (i : Invocation) (s : Settings) :
    Command → Store × Except Fault (Nat × Printed)
  | .process mode paths c jobs =>
    match processFiles store s mode paths c jobs with
    | (last, .error f) => (last, .error f)
    | (last, .ok b) =>
      let printed := if i.machineReadable then .document b.report
        else .text (console (runReport b i.verbose))
      (last, .ok (exitCodeOf b, printed))
  | .rules c =>
    let list := do (← override s c none).ruleList
    (store, list.map fun rules =>
      (0, if i.machineReadable then .document (ruleDocument rules)
        else .text (console (ruleTable rules))))
  | .showConfig =>
    let shown : Except Fault Printed :=
      if i.machineReadable then s.toValue.map .document
      else s.summary.map fun t => .text (console (configReport t))
    (store, shown.map (0, ·))
  | .initConfig path format =>
    match Config.save store .default path format with
    | .error f => (store, .error f)
    | .ok saved =>
      let text := success ("Default configuration file created at " ++ path)
        ++ note "Edit the file to customize your Nativize settings."
      (saved, .ok (0, if i.machineReadable then .nothing else .text (console text)))

/-- What is printed about a fault. -/
def faultReport (i : Invocation) (name : String) (f : Fault) : Printed :=
  if i.machineReadable then
    .document (.map [("success", .bool false), ("error", .ofString f.message),
      ("command", .ofString name)])
  else .text (console (failure ("Error: " ++ f.message)))

/-- Loads the settings and carries out a command. -/
def carryOut (store : Store) (env : Config.Environment) (i : Invocation) (c : Command) :
    Store × Except Fault (Nat × Printed) :=
  match Config.load store env { path := i.configPath } with
  | .error f => (store, .error f)
  | .ok s => perform store i s c

/-- Runs the program. -/
def run (store : Store) (env : Config.Environment) (args : List String) :
    Except Fault Outcome :=
  match parse args with
  | .error .misused => .ok ⟨2, .nothing, store⟩
  | .error .help => .ok ⟨0, .help, store⟩
  | .error .version => .ok ⟨0, .text (line version), store⟩
  | .ok i =>
    match i.command with
    | none => .ok ⟨2, .help, store⟩
    | some (name, c) =>
      match carryOut store env i c with
      | (last, .ok (code, printed)) => .ok ⟨code, printed, last⟩
      | (last, .error f) =>
        if isReported f then .ok ⟨2, faultReport i name f, last⟩ else .error f

end Codemod.CommandLine
