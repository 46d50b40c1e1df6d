/-
Attributes, properties and contents of an element.
-/
import Codemod.Rule.Receiver

namespace Codemod

/-- The expression evaluates to a string or a number, within `fuel`
operands. -/
def Cursor.isStringValuedWithin : Nat → Cursor → Bool
  | 0, _ => false
  | fuel + 1, c =>
    let e := c.unparen
    if e.isAny [.string, .templateString, .number] then true
    else if e.is .binaryExpression then
      match e.child? .operator with
      | none => false
      | some op =>
        if op.code != Text.ofString "+" then false
        else
          let sides := [e.inner? .left, e.inner? .right]
          sides.any (fun
            | some o => o.isAny [.string, .templateString]
            | none => false)
          || sides.all fun
            | some o => isStringValuedWithin fuel o
            | none => false
    else false

/-- The expression evaluates to a string or a number. -/
def Cursor.isStringValued (c : Cursor) : Bool :=
  c.isStringValuedWithin c.node.size

namespace Rules

/-- `$(el).attr(name)` reads an attribute, and with a value sets it. -/
def attr : Rule := .ofSweeps "attr-to-get-set-attribute" "jquery"
  "$(el).attr(name[, value]) -> el.getAttribute(name) / el.setAttribute(name, value)"
  [.ofMethods ["attr"] fun context call m _ args => do
    match args with
    | [name] =>
      if (← name.singleToken?).isNone then return none
      match ← receiverTarget? context m with
      | none => return none
      | some target =>
        return some (Build.methodCall target "getAttribute" [name.node])
    | [name, value] =>
      if (← name.singleToken?).isNone then return none
      if !value.isStringValued || !call.isDiscarded then return none
      match ← receiverTarget? context m with
      | none => return none
      | some target =>
        return some (Build.methodCall target "setAttribute"
          [name.node, value.node])
    | _ => return none]

/-- `$(el).removeAttr(name)` takes an attribute away. -/
def removeAttr : Rule := .ofSweeps "remove-attr-to-remove-attribute" "jquery"
  "$(el).removeAttr(name) -> el.removeAttribute(name)"
  [.ofMethods ["removeAttr"] fun context call m _ args => do
    match args with
    | [name] =>
      if (← name.singleToken?).isNone || !call.isDiscarded then return none
      match ← receiverTarget? context m with
      | none => return none
      | some target =>
        return some (Build.methodCall target "removeAttribute" [name.node])
    | _ => return none]

/-- The properties that are spelled differently from their attributes. -/
def propertySpellings : List (String × String) := [
  ("for", "htmlFor"), ("class", "className"), ("tabindex", "tabIndex"),
  ("readonly", "readOnly"), ("maxlength", "maxLength"),
  ("cellspacing", "cellSpacing"), ("cellpadding", "cellPadding"),
  ("rowspan", "rowSpan"), ("colspan", "colSpan"), ("usemap", "useMap"),
  ("frameborder", "frameBorder"), ("contenteditable", "contentEditable")]

/-- The property that a name stands for. -/
def propertySpelling (name : Text) : Text :=
  match propertySpellings.find? fun (k, _) => Text.ofString k == name with
  | some (_, v) => v
  | none => name

/-- A name that can stand behind a dot. A line feed may follow. -/
def isPropertyName (t : Text) : Bool :=
  match t.withoutFinalNewline with
  | p :: ps =>
    (p.test Char.isAlpha || p.is '_' || p.is '$')
      && ps.all fun q => q.isWord || q.is '$'
  | [] => false

/-- `$(el).prop(name)` is the element's property, and with a value sets
it. -/
def prop : Rule := .ofSweeps "prop-to-direct-property" "jquery"
  "$(el).prop(\"checked\"[, value]) -> el.checked [= value]"
  [.ofMethods ["prop"] fun context call m _ args => do
    match args with
    | [] => return none
    | arg :: rest =>
      if rest.length > 1 then return none
      match (← arg.node.stringValue).filter isPropertyName with
      | none => return none
      | some name =>
        let settable := rest.all fun value =>
          !value.isFunctionValue && call.isDiscarded
        if !settable then return none
        match ← receiverTarget? context m with
        | none => return none
        | some target =>
          let access := Build.member target (propertySpelling name)
          match rest with
          | [value] => return some (Build.assignment access value.node)
          | _ => return some access]

/-- The elements that jQuery inserts by other means than markup. -/
def specialElements : List String := [
  "script", "style", "link", "option", "optgroup", "thead", "tbody",
  "tfoot", "colgroup", "caption", "col", "tr", "td", "th"]

/-- The lower case letter that a point equals when case is ignored. -/
def foldCase : Point → Point
  | .scalar c =>
    if 'A' ≤ c && c ≤ 'Z' then .scalar c.toLower
    else if c.toNat == 0x17F then .scalar 's'
    else if c.toNat == 0x212A then .scalar 'k'
    else if c.toNat == 0x130 || c.toNat == 0x131 then .scalar 'i'
    else .scalar c
  | p => p

/-- The markup holds an element that jQuery inserts by other means. -/
def hasSpecialElement (t : Text) : Bool :=
  t.suffixes.any fun
    | p :: rest =>
      p.is '<' && specialElements.any fun w =>
        let word := Text.ofString w
        word.isPrefixOf (rest.map foldCase)
          && match rest.drop word.length with
            | q :: _ => !q.isWord
            | [] => true
    | [] => false

/-- The property behind each accessor. -/
def contentProperty (method : Text) : Text :=
  if method == Text.ofString "val" then "value"
  else if method == Text.ofString "text" then "textContent"
  else "innerHTML"

/-- The accessor may set the value by assignment. -/
def isSettable (method : Text) (value call : Cursor) : Check Bool := do
  if value.isFunctionValue || !call.isDiscarded then return false
  if method == Text.ofString "html" then
    match ← value.node.stringValue with
    | some markup => return !hasSpecialElement markup
    | none => return false
  if method == Text.ofString "val" then return value.isStringValued
  return true

/-- `$(el).val()`, `.text()` and `.html()` are properties of the
element. -/
def contentAccessors : Rule := .ofSweeps "content-accessors-to-properties" "jquery"
  "$(el).val() / .text() / .html() -> el.value / el.textContent / el.innerHTML"
  [.ofMethods ["val", "text", "html"] fun context call m method args => do
    match args with
    | [] =>
      match ← receiverTarget? context m with
      | none => return none
      | some target => return some (Build.member target (contentProperty method))
    | [value] =>
      if !(← isSettable method value call) then return none
      match ← receiverTarget? context m with
      | none => return none
      | some target =>
        return some (Build.assignment
          (Build.member target (contentProperty method)) value.node)
    | _ => return none]

end Rules

end Codemod
