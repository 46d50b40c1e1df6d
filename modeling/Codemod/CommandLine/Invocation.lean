/-
What a command line asks for.
-/
import Codemod.Batch.Outcome
import Codemod.CommandLine.Option
import Codemod.Config.Source

namespace Codemod.CommandLine

/-- Which rules are run, as far as the command line says. -/
structure RuleChoice where
  /-- Only these groups, if there are any. -/
  only : List String := []
  noJquery : Bool := false
  /-- Rules to leave out. -/
  disable : List String := []

/-- What is to be done. -/
inductive Command where
  /-- Process files. -/
  | process (mode : Mode) (paths : List String) (rules : RuleChoice) (jobs : Option Int)
  /-- List the rules. -/
  | rules (rules : RuleChoice)
  /-- Show the configuration. -/
  | showConfig
  /-- Write the configuration that sets nothing to a file. -/
  | initConfig (path : String) (format : Config.Format)

/-- A command line that is understood. -/
structure Invocation where
  /-- The command by its name; none if there is none. -/
  command : Option (String × Command)
  configPath : Option String := none
  verbose : Bool := false
  noRich : Bool := false
  machineReadable : Bool := false

-- ============================================================= grammars

/-- An option that asks for help. -/
def helpOption : Switch := ⟨["--help", "-h"], .help⟩

/-- An option with any value. -/
def anyValue (names : List String) : Switch := ⟨names, .value fun _ => true⟩

/-- The options in front of the command. -/
def globalGrammar : Grammar where
  options := [helpOption, anyValue ["--config", "-c"], ⟨["--verbose", "-v"], .flag⟩,
    ⟨["--no-rich"], .flag⟩, ⟨["--machine-readable"], .flag⟩, ⟨["--version"], .version⟩]
  plainWords := .command

/-- The options that choose rules. -/
def ruleOptions : List Switch :=
  [⟨["--no-jquery"], .flag⟩, anyValue ["--only"], anyValue ["--disable"]]

/-- The whole number that a word spells. -/
def number? (s : String) : Option Int := Config.wholeNumber? (Text.ofString s)

/-- The options of the commands that process files. -/
def processGrammar : Grammar where
  options := helpOption :: ruleOptions
    ++ [⟨["--jobs", "-j"], .value fun s => (number? s).isSome⟩]
  plainWords := .listed

/-- The options of the command that lists the rules. -/
def rulesGrammar : Grammar where
  options := helpOption :: ruleOptions

/-- The options of the command about the configuration. -/
def configGrammar : Grammar where
  options := [helpOption, ⟨["--show"], .flag⟩, anyValue ["--init"],
    ⟨["--format"], .value fun s => s == "json" || s == "yaml"⟩]
  exclusive := ["--show", "--init"]

-- ============================================================= commands

/-- The rules that are chosen. -/
def ruleChoice (r : Reading) : RuleChoice where
  only := r.values "--only"
  noJquery := r.has "--no-jquery"
  disable := r.values "--disable"

/-- The command that processes files in a mode. -/
def processCommand (mode : Mode) (r : Reading) : Command :=
  .process mode r.words (ruleChoice r) ((r.value? "--jobs").bind number?)

/-- The command about the configuration. -/
def configCommand (r : Reading) : Command :=
  match (r.value? "--init").filter (!·.isEmpty) with
  | some path => .initConfig path (.ofName ((r.value? "--format").getD "json"))
  | none => .showConfig

/-- How the words behind a command are read; none if there is no such
command. -/
def commandGrammar? (name : String) : Option (Grammar × (Reading → Command)) :=
  match name with
  | "upgrade" => some (processGrammar, processCommand .write)
  | "check" => some (processGrammar, processCommand .check)
  | "diff" => some (processGrammar, processCommand .diff)
  | "rules" => some (rulesGrammar, fun r => .rules (ruleChoice r))
  | "config" => some (configGrammar, configCommand)
  | _ => none

/-- Reads a command line. What is left over is only found fault with at
the end, so help that is asked for behind it is given. -/
def parse (args : List String) : Except Refusal Invocation := do
  let r ← globalGrammar.read args
  let (command, leftover) ← match r.words with
    | [] => pure (none, false)
    | name :: rest =>
      match commandGrammar? name with
      | none => throw .misused
      | some (grammar, build) =>
        let inner ← grammar.read rest
        pure (some (name, build inner), inner.leftover)
  if r.leftover || leftover then throw .misused
  return {
    command := command
    configPath := r.value? "--config"
    verbose := r.has "--verbose"
    noRich := r.has "--no-rich"
    machineReadable := r.has "--machine-readable" }

end Codemod.CommandLine
