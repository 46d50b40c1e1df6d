/-
Running rules to a fixed point.

A pass parses the text, applies every rule in order to one tree and
prints the result. Passes are repeated until one changes nothing, so a
converged result is stable under another run of the same rules.
-/
import Codemod.Parse.Source
import Codemod.Rule.Registry

namespace Codemod

/-- What a run makes of a source text. -/
structure TransformResult where
  /-- The text at the end. -/
  code : Text
  /-- It differs from the text at the start. -/
  modified : Bool
  /-- The rules that reported a change, in the order of their first. -/
  appliedRules : List String
  /-- The passes made. -/
  passes : Nat
  /-- The last pass changed nothing. -/
  converged : Bool

/-- Rules to be run together. -/
structure Engine where
  /-- The rules, in the order they are applied. -/
  rules : List Rule
  /-- What they are told. -/
  context : RuleContext
  /-- How many passes are made at most. -/
  maxPasses : Nat

namespace Engine

/-- The passes allowed unless configured otherwise. -/
def defaultMaxPasses : Int := 20

/-- An engine, which has to be allowed a pass. -/
def make (rules : List Rule) (context : RuleContext) (maxPasses : Int) :
    Except Fault Engine :=
  if maxPasses ≤ 0 then .error .noPasses
  else .ok ⟨rules, context, maxPasses.toNat⟩

/-- Applies rules one after the other and collects the names of those
that report a change. -/
def applyRules (context : RuleContext) :
    List Rule → Workspace → Except Fault (List String × Workspace)
  | [], w => .ok ([], w)
  | r :: rs, w =>
    match r.apply context w with
    | (_, .error f) => .error f
    | (w', .ok changed) =>
      match applyRules context rs w' with
      | .error f => .error f
      | .ok (names, last) => .ok (if changed then r.name :: names else names, last)

/-- Applies every rule once: the new text and the rules that reported a
change. -/
def runPass (e : Engine) (code : Text) : Except Fault (Text × List String) :=
  match parse code with
  | .error f => .error f
  | .ok n =>
    match applyRules e.context e.rules (.ofProgram n) with
    | .error f => .error f
    | .ok ([], _) => .ok (code, [])
    | .ok (names, w) => .ok (w.render, names)

/-- Names added to a list that has no repetitions. -/
def addNames (known names : List String) : List String :=
  names.foldl (fun seen s => if seen.contains s then seen else seen ++ [s]) known

/-- Makes up to `left` further passes on a text that `passes` passes
have produced from `start`. -/
def runFrom (e : Engine) (start : Text) :
    Nat → Nat → Text → List String → Except Fault TransformResult
  | 0, passes, current, applied =>
    .ok ⟨current, current != start, applied, passes, false⟩
  | left + 1, passes, current, applied =>
    match e.runPass current with
    | .error f => .error f
    | .ok (next, names) =>
      let applied' := addNames applied names
      if names.isEmpty || next == current then
        .ok ⟨current, current != start, applied', passes + 1, true⟩
      else runFrom e start left (passes + 1) next applied'

/-- Transforms a text to a fixed point of the rules. -/
def run (e : Engine) (code : Text) : Except Fault TransformResult :=
  e.runFrom code e.maxPasses 0 code []

end Engine

end Codemod
