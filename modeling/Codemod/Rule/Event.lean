/-
Event handlers, events and the loading of the document.
-/
import Codemod.Rule.Callback

namespace Codemod

/-- The name of one event without a namespace. A line feed may follow. -/
def isEventName (t : Text) : Bool :=
  match t.withoutFinalNewline with
  | p :: ps =>
    p.test Char.isAlpha && ps.all fun q => q.isWord || q.is ':' || q.is '-'
  | [] => false

namespace Cursor

/-- The literal names one event. -/
def namesEvent (c : Cursor) : Check Bool := do
  return ((← c.node.stringValue).filter isEventName).isSome

/-- The function that a handler denotes, when the file defines it. -/
def handlerFunction? (c : Cursor) : Option Cursor :=
  let e := c.unparen
  if e.node.isFunctionLiteral then some e
  else if !e.is .identifier then none
  else
    let bound := ((e.resolve? e.code).map unparen).filter (·.node.isFunctionLiteral)
    match bound with
    | some f => some f
    | none =>
      match e.binding? e.code with
      | some (scope, [d]) =>
        match d.declarator with
        | some f =>
          if f.is .functionDeclaration && !scope.isWritten e.code then some f
          else none
        | none => none
      | _ => none

/-- The handler is a function of this file that never returns
`false`. -/
def isPlainHandler (c : Cursor) : Bool :=
  match c.handlerFunction? with
  | some f => !f.mayReturnFalse
  | none => false

end Cursor

namespace Rules

/-- `$(el).on(name, handler)` listens on the element. -/
def addListener : Rule := .ofSweeps "on-to-add-event-listener" "jquery"
  "$(el).on(\"click\", fn) -> el.addEventListener(\"click\", fn)"
  [.ofMethods ["on"] fun context call m _ args => do
    match args with
    | [event, handler] =>
      if !(← event.namesEvent) then return none
      if !handler.isPlainHandler || !call.isDiscarded then return none
      match ← receiverTarget? context m with
      | none => return none
      | some target =>
        return some (Build.methodCall target "addEventListener"
          [event.node, handler.node])
    | _ => return none]

/-- `$(el).off(name, handler)` stops listening, for a handler with a
name. -/
def removeListener : Rule := .ofSweeps "off-to-remove-event-listener" "jquery"
  "$(el).off(\"click\", handler) -> el.removeEventListener(\"click\", handler)"
  [.ofMethods ["off"] fun context call m _ args => do
    match args with
    | [event, handler] =>
      if !(← event.namesEvent) then return none
      if !handler.unparen.is .identifier || !handler.isPlainHandler then return none
      if !call.isDiscarded then return none
      match ← receiverTarget? context m with
      | none => return none
      | some target =>
        return some (Build.methodCall target "removeEventListener"
          [event.node, handler.node])
    | _ => return none]

/-- `$(el).trigger(name)` dispatches an event that bubbles. -/
def trigger : Rule := .ofSweeps "trigger-to-dispatch-event" "jquery"
  "$(el).trigger(\"change\") -> el.dispatchEvent(new Event(\"change\", \x7b bubbles: true \x7d))"
  [.ofMethods ["trigger"] fun context call m _ args => do
    match args with
    | [event] =>
      if !(← event.namesEvent) || !call.isDiscarded then return none
      if !call.isGlobal "Event" then return none
      match ← receiverTarget? context m with
      | none => return none
      | some target =>
        let options := Build.object [("bubbles", Build.boolean true)]
        let made := Build.newExpression (Build.identifier "Event")
          [event.node, options]
        return some (Build.methodCall target "dispatchEvent" [made])
    | _ => return none]

/-- `document.addEventListener("DOMContentLoaded", handler)`. -/
def whenLoaded (handler : Node) : Node :=
  Build.methodCall (Build.identifier "document") "addEventListener"
    [Build.string "DOMContentLoaded", handler]

/-- `$(document).ready(handler)` with a handler without parameters. -/
def readyCalls : Sweep :=
  .ofMethods ["ready"] fun context call m _ args => do
    match args, m.inner? .object with
    | [handler], some receiver =>
      if !call.isDiscarded then return none
      match handler.handlerFunction? with
      | none => return none
      | some f =>
        if f.hasParameters then return none
        if !(← receiver.isFactoryCall context.factoryNames) then return none
        match receiver.arguments.head? with
        | none => return none
        | some wrapped =>
          if !wrapped.unparen.node.isIdentifier "document" then return none
          if !call.isGlobal "document" then return none
          return some (whenLoaded handler.node)
    | _, _ => return none

/-- `$(handler)` with a function without parameters written out. -/
def readyShorthand : Sweep where
  isCandidate c := c.is .callExpression
  replacement context call := do
    if !(← call.isFactoryCall context.factoryNames) then return none
    match call.arguments.head? with
    | none => return none
    | some handler =>
      if !handler.isFunctionValue || handler.unparen.hasParameters then return none
      if !call.isDiscarded || !call.isGlobal "document" then return none
      if ← call.isFoldable 1 defaultTransformableMembers context.factoryNames then
        return some (whenLoaded handler.node)
      else return none

/-- A handler that waits for the document listens for its loading. -/
def ready : Rule := .ofSweeps "ready-to-dom-content-loaded" "jquery"
  "$(document).ready(fn) / $(fn) -> document.addEventListener(\"DOMContentLoaded\", fn)"
  [readyCalls, readyShorthand]

end Rules

end Codemod
