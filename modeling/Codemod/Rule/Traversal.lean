/-
Moving between elements.

These methods return a new wrapper, so the native lookup is wrapped
again: `$(el).parent()` becomes `$(el.parentElement)`. The rules for
elements can then take the new wrapper away where its use allows it.
-/
import Codemod.Rule.Receiver

namespace Codemod.Rules

/-- The wrapper around what `build` makes of the receiver's element. -/
def rewrapped (context : RuleContext) (m : Cursor) (build : Node → Node) :
    Check (Option Node) := do
  match ← factoryNameFor? context m with
  | none => return none
  | some factory =>
    match ← receiverTarget? context m with
    | none => return none
    | some target => return some (rewrap factory (build target))

/-- The property that holds what a method finds. -/
def neighbourProperty (method : Text) : Text :=
  if method == Text.ofString "parent" then "parentElement"
  else if method == Text.ofString "next" then "nextElementSibling"
  else if method == Text.ofString "prev" then "previousElementSibling"
  else "children"

/-- Neighbours without a selector are properties. -/
def neighbours : Rule := .ofSweeps "sibling-traversal-to-element-properties" "jquery"
  "$(el).parent() / .next() / .prev() / .children() -> $(el.parentElement) ..."
  [.ofMethods ["parent", "next", "prev", "children"] fun context _ m method args => do
    if !args.isEmpty then return none
    rewrapped context m fun target =>
      Build.member target (neighbourProperty method)]

/-- `$(el).closest(selector)` with a native selector. -/
def closest : Rule := .ofSweeps "closest-to-native-closest" "jquery"
  "$(el).closest(\".x\") -> $(el.closest(\".x\"))"
  [.ofMethods ["closest"] fun context _ m _ args => do
    match args with
    | [selector] =>
      if (← selector.nativeSelector?).isNone then return none
      rewrapped context m fun target =>
        Build.methodCall target "closest" [selector.node]
    | _ => return none]

/-- `$(el).find(selector)` with a native selector for single
elements. -/
def find : Rule := .ofSweeps "find-to-query-selector-all" "jquery"
  "$(el).find(\".x\") -> $(el.querySelectorAll(\".x\"))"
  [.ofMethods ["find"] fun context _ m _ args => do
    match args with
    | [selector] =>
      match (← selector.nativeSelector?).filter fun t => !hasCombinator t with
      | none => return none
      | some _ =>
        rewrapped context m fun target =>
          Build.methodCall target "querySelectorAll" [selector.node]
    | _ => return none]

/-- The name of the parameter that runs over the siblings. -/
def siblingName : Text := "sibling"

/-- The elements that share the target's parent, without the target, in
document order. -/
def siblingsOf (target : Node) (selector : Option Node) : Node :=
  let parent := Build.member target "parentNode"
  let listed := Build.memberNode parent (Build.propertyIdentifier "children") true
  let children := Build.binary listed "??" (Build.array [])
  let sibling := Build.identifier siblingName
  let others := Build.binary sibling "!==" target.copy
  let test := match selector with
    | some s => Build.binary others "&&" (Build.methodCall sibling "matches" [s])
    | none => others
  Build.methodCall
    (Build.methodCall (Build.identifier "Array") "from" [children])
    "filter" [Build.arrow [sibling] test]

/-- The selector is absent, or native and for single elements. -/
def isSiblingSelector : Option Cursor → Check Bool
  | none => return true
  | some s => do
    return ((← s.nativeSelector?).filter fun t => !hasCombinator t).isSome

/-- The receiver's element can be written twice, once inside a function
of its own parameter. -/
def isRepeatable (context : RuleContext) (m : Cursor) : Check Bool := do
  match m.inner? .object with
  | none => return false
  | some receiver =>
    match ← receiver.wrappedArgument? context.factoryNames with
    | none => return false
    | some wrapped =>
      let arg := wrapped.unparen
      if !arg.isAny [.identifier, .thisExpr] || arg.code == siblingName then
        return false
      arg.isDuplicable (some m)

/-- `$(el).siblings()` filters the parent's children. -/
def siblings : Rule := .ofSweeps "siblings-to-filtered-children" "jquery"
  "$(el).siblings([\".x\"]) -> $(Array.from(el.parentNode?.children ?? []).filter(...))"
  [.ofMethods ["siblings"] fun context call m _ args => do
    if args.length > 1 then return none
    if !(← isSiblingSelector args.head?) then return none
    if !call.isGlobal "Array" then return none
    if !(← isRepeatable context m) then return none
    rewrapped context m fun target =>
      siblingsOf target (args.head?.map (·.node))]

end Codemod.Rules
