/-
Visibility, inline styles and the size of the window.
-/
import Codemod.Rule.Receiver

namespace Codemod.Rules

/-- The value of `style.display` that a method sets. -/
def displayValue (method : Text) : Text :=
  if method == Text.ofString "hide" then "none" else ""

/-- `$(el).hide()` sets the element's display style. -/
def showHide : Rule := .ofSweeps "show-hide-to-style-display" "jquery"
  "$(el).show() / .hide() -> el.style.display = \"\" / \"none\""
  [.ofMethods ["show", "hide"] fun context call m method args => do
    if !args.isEmpty || !call.isDiscarded then return none
    match ← receiverTarget? context m with
    | none => return none
    | some target =>
      let style := Build.member (Build.member target "style") "display"
      return some (Build.assignment style (Build.string (displayValue method)))]

/-- The name of a style property: letters, digits and hyphens behind at
most two hyphens. A line feed may follow. -/
def isStyleName (t : Text) : Bool :=
  let u := t.withoutFinalNewline
  let rest := u.dropWhile (·.is '-')
  match rest with
  | p :: ps =>
    u.length ≤ rest.length + 2 && p.test Char.isAlpha
      && ps.all fun q => q.test Char.isAlphanum || q.is '-'
  | [] => false

/-- A value relative to the present one, such as `+=10px`. -/
def isRelativeValue : Text → Bool
  | p :: q :: _ => (p.is '+' || p.is '-') && q.is '='
  | _ => false

/-- A style property's name with hyphens: `backgroundColor` becomes
`background-color`. Names behind two hyphens are kept. -/
def kebabCase (t : Text) : Text :=
  if (Text.ofString "--").isPrefixOf t then t
  else t.flatMap fun
    | .scalar c =>
      if 'A' ≤ c && c ≤ 'Z' then [.scalar '-', .scalar c.toLower] else [.scalar c]
    | p => [p]

/-- `$(el).css(name)` reads a computed style, and with a value sets an
inline one. -/
def css : Rule := .ofSweeps "css-to-style" "jquery"
  "$(el).css(name[, \"value\"]) -> getComputedStyle / style.setProperty"
  [.ofMethods ["css"] fun context call m _ args => do
    match args with
    | [name] => do
      match (← name.node.stringValue).filter isStyleName with
      | none => return none
      | some property =>
        if !call.isGlobal "getComputedStyle" then return none
        match ← receiverTarget? context m with
        | none => return none
        | some target =>
          let computed := Build.call (Build.identifier "getComputedStyle") [target]
          return some (Build.methodCall computed "getPropertyValue"
            [Build.string (kebabCase property)])
    | [name, value] => do
      match (← name.node.stringValue).filter isStyleName with
      | none => return none
      | some property =>
        match ← value.node.stringValue with
        | none => return none
        | some v =>
          if isRelativeValue v || !call.isDiscarded then return none
          match ← receiverTarget? context m with
          | none => return none
          | some target =>
            return some (Build.methodCall (Build.member target "style")
              "setProperty" [Build.string (kebabCase property), value.node])
    | _ => return none]

/-- The property that holds a side of the window. -/
def clientSize (method : Text) : Text :=
  if method == Text.ofString "width" then "clientWidth" else "clientHeight"

/-- `$(window).width()` is the size of the document's root element. -/
def windowSize : Rule := .ofSweeps "window-size-to-client-size" "jquery"
  "$(window).width() / .height() -> document.documentElement.clientWidth / clientHeight"
  [.ofMethods ["width", "height"] fun context call m method args => do
    if !args.isEmpty then return none
    match m.inner? .object with
    | none => return none
    | some receiver =>
      match ← receiver.wrappedArgument? context.factoryNames with
      | none => return none
      | some wrapped =>
        let arg := wrapped.unparen
        if !arg.node.isIdentifier "window" || !arg.isGlobal "window" then return none
        if !call.isGlobal "document" then return none
        let element := Build.member (Build.identifier "document") "documentElement"
        return some (Build.member element (clientSize method))]

end Codemod.Rules
