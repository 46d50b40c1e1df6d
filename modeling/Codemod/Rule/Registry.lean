/-
The rules by name.

A registry keeps its rules in the order they were registered, which is
the order they are applied in. Names are unique and not empty.
-/
import Codemod.Rule.Attribute
import Codemod.Rule.ClassList
import Codemod.Rule.Collection
import Codemod.Rule.Display
import Codemod.Rule.Event
import Codemod.Rule.Idiom
import Codemod.Rule.Insertion
import Codemod.Rule.Selector
import Codemod.Rule.Traversal

namespace Codemod

/-- Rules in the order of their registration. -/
structure Registry where
  /-- The rules. -/
  rules : List Rule

/-- The rule that changes nothing. -/
def Rule.idle (info : RuleInfo) : Rule :=
  { toRuleInfo := info, action := .sweeps [] }

/-- The items without repetitions, each at its first place. -/
def firstOccurrences (items : List String) : List String :=
  items.foldl (fun seen s => if seen.contains s then seen else seen ++ [s]) []

namespace Registry

/-- No rules. -/
def empty : Registry := ⟨[]⟩

/-- The rule of a name. -/
def find? (r : Registry) (name : String) : Option Rule :=
  r.rules.find? (·.name == name)

/-- The registry with one more rule. -/
def register (r : Registry) (rule : Rule) : Except Fault Registry :=
  if rule.name.isEmpty then .error .unnamedRule
  else if (r.find? rule.name).isSome then .error (.duplicateRule rule.name)
  else .ok ⟨r.rules ++ [rule]⟩

/-- The rule of a name, which has to exist. -/
def get (r : Registry) (name : String) : Except Fault Rule :=
  match r.find? name with
  | some rule => .ok rule
  | none => .error (.unknownRule name)

/-- The groups in the order of their first rules. -/
def groups (r : Registry) : List String :=
  firstOccurrences (r.rules.map (·.group))

/-- The rules of the given groups, of all groups if none are given,
without the disabled ones. Every name given has to exist. -/
def select (r : Registry) (groups : Option (List String))
    (disabled : List String) : Except Fault (List Rule) := do
  (firstOccurrences disabled).forM fun name => (r.get name).map fun _ => ()
  match groups with
  | none => return r.rules.filter fun rule => !disabled.contains rule.name
  | some wanted =>
    let unknown := (firstOccurrences wanted).filter fun g => !r.groups.contains g
    if !unknown.isEmpty then
      throw (.unknownGroups (unknown.mergeSort fun a b => !(b < a)))
    return r.rules.filter fun rule =>
      wanted.contains rule.group && !disabled.contains rule.name

/-- The rules of the library. -/
def builtin : Registry := ⟨[
  Rules.showHide, Rules.css, Rules.windowSize,
  Rules.addRemoveClass, Rules.toggleClass, Rules.hasClass,
  Rules.attr, Rules.removeAttr, Rules.prop, Rules.contentAccessors,
  Rules.addListener, Rules.removeListener, Rules.trigger, Rules.ready,
  Rules.neighbours, Rules.closest, Rules.find, Rules.siblings,
  Rules.removeAndEmpty, Rules.insertion,
  Rules.each, Rules.grep, Rules.map, Rules.trim, Rules.inArray,
  Rules.byId, Rules.byClass, Rules.eachElement, Rules.unwrapElement,
  Rules.power, Rules.substr, Rules.includes, Rules.startsWithIndex,
  Rules.startsWithPart, Rules.arrayFrom, Rules.useStrict]⟩

end Registry

end Codemod
