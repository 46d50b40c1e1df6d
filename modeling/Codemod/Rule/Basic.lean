/-
Transformation rules.

A rule sweeps over the candidates that the tree holds when it starts, in
source order. A candidate that an earlier replacement of the same sweep
has taken out of the program is passed over. A rule reports a change
exactly when it has replaced something.
-/
import Codemod.Analysis.Fold
import Codemod.Tree.Workspace

namespace Codemod

/-- What the rules are told about the project. -/
structure RuleContext where
  /-- The names of the factory. -/
  factoryNames : List Text
  /-- The members that mean the same on a wrapper and on its element. -/
  transformableMembers : List Text

/-- The context unless another is configured. -/
def RuleContext.default : RuleContext :=
  ⟨defaultFactoryNames, defaultTransformableMembers⟩

/-- One sweep over the candidates of a rule. -/
structure Sweep where
  /-- The nodes to look at, as the tree stands when the sweep starts. -/
  isCandidate : Cursor → Bool
  /-- What a candidate is to be replaced by, if anything. -/
  replacement : RuleContext → Cursor → Check (Option Node)

/-- What a rule leaves behind: the workspace, and whether it changed
anything, unless it failed half way. -/
abbrev RuleOutcome := Workspace × Except Fault Bool

namespace Sweep

/-- The identities of the candidates, in source order. -/
def candidates (s : Sweep) (w : Workspace) : List Nat :=
  ((Cursor.top w.program).walk.filter s.isCandidate).filterMap (·.node.id)

/-- Looks at candidates one after the other; `changed` tells whether one
has been replaced already. -/
def visit (s : Sweep) (context : RuleContext) :
    List Nat → Bool → Workspace → RuleOutcome
  | [], changed, w => (w, .ok changed)
  | i :: rest, changed, w =>
    match w.findInProgram? i with
    | none => s.visit context rest changed w
    | some c =>
      match s.replacement context c with
      | .error f => (w, .error f)
      | .ok none => s.visit context rest changed w
      | .ok (some new) =>
        match c.parent? with
        | none => (w, .error .replacesDetached)
        | some p => s.visit context rest true (w.splice p.node c.node new)

/-- Runs the sweep. -/
def run (s : Sweep) (context : RuleContext) (w : Workspace) : RuleOutcome :=
  s.visit context (s.candidates w) false w

end Sweep

/-- Runs sweeps one after the other. -/
def runSweeps (context : RuleContext) : List Sweep → Bool → Workspace → RuleOutcome
  | [], changed, w => (w, .ok changed)
  | s :: rest, changed, w =>
    match s.run context w with
    | (w', .ok b) => runSweeps context rest (changed || b) w'
    | (w', .error f) => (w', .error f)

/-- What is known of a rule by name. -/
structure RuleInfo where
  /-- The name it is selected by. -/
  name : String
  /-- The group it belongs to. -/
  group : String
  /-- What it does, in one line. -/
  description : String
deriving DecidableEq

/-- How a rule works. -/
inductive RuleAction where
  /-- It replaces every candidate that it can prove safe. -/
  | sweeps (sweeps : List Sweep)
  /-- It changes the statements of the program. -/
  | onProgram (change : Workspace → RuleOutcome)

/-- A transformation rule. -/
structure Rule extends RuleInfo where
  /-- How it works. -/
  action : RuleAction

namespace Rule

/-- The rule that consists of sweeps. -/
def ofSweeps (name group description : String) (sweeps : List Sweep) : Rule where
  name := name
  group := group
  description := description
  action := .sweeps sweeps

/-- Runs the rule. -/
def apply (rule : Rule) (context : RuleContext) (w : Workspace) : RuleOutcome :=
  match rule.action with
  | .sweeps sweeps => runSweeps context sweeps false w
  | .onProgram change => change w

end Rule

end Codemod
