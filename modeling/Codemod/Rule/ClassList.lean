/-
The classes of an element.
-/
import Codemod.Rule.Receiver

namespace Codemod.Rules

/-- The element's class list. -/
def classList (target : Node) : Node := Build.member target "classList"

/-- `$(el).addClass("a b")` adds each class. -/
def addRemoveClass : Rule := .ofSweeps "add-remove-class-to-class-list" "jquery"
  "$(el).addClass(\"a b\") -> el.classList.add(\"a\", \"b\")"
  [.ofMethods ["addClass", "removeClass"] fun context call m method args => do
    match args with
    | [arg] =>
      if !call.isDiscarded then return none
      match ← arg.node.stringValue with
      | none => return none
      | some value =>
        let classes := value.words
        if classes.isEmpty then return none
        match ← receiverTarget? context m with
        | none => return none
        | some target =>
          let name : Text :=
            if method == Text.ofString "addClass" then "add" else "remove"
          return some (Build.methodCall (classList target) name
            (classes.map Build.string))
    | _ => return none]

/-- `$(el).toggleClass("a")` toggles one class. -/
def toggleClass : Rule := .ofSweeps "toggle-class-to-class-list" "jquery"
  "$(el).toggleClass(\"a\") -> el.classList.toggle(\"a\")"
  [.ofMethods ["toggleClass"] fun context call m _ args => do
    match args with
    | [arg] =>
      if !call.isDiscarded then return none
      if (← arg.singleToken?).isNone then return none
      match ← receiverTarget? context m with
      | none => return none
      | some target =>
        return some (Build.methodCall (classList target) "toggle" [arg.node])
    | _ => return none]

/-- `$(el).hasClass("a")` asks for one class. -/
def hasClass : Rule := .ofSweeps "has-class-to-class-list-contains" "jquery"
  "$(el).hasClass(\"a\") -> el.classList.contains(\"a\")"
  [.ofMethods ["hasClass"] fun context _ m _ args => do
    match args with
    | [arg] =>
      if (← arg.singleToken?).isNone then return none
      match ← receiverTarget? context m with
      | none => return none
      | some target =>
        return some (Build.methodCall (classList target) "contains" [arg.node])
    | _ => return none]

end Codemod.Rules
