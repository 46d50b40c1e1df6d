/-
Recipes: descriptions of nodes to be built.

A recipe names a form and gives recipes for its operands, or it picks a
node that is already there: to be moved, or to be copied. Operands are
prepared from left to right, and what is prepared stays in the workspace
even when a later operand fails. A node that is moved into a form leaves
its old place, also when that place is inside another operand; a node
given twice ends up in the later place.
-/
import Codemod.Edit.Session

namespace Codemod

/-- What is built from operands. -/
inductive Form where
  | identifier (name : Text)
  | propertyIdentifier (name : Text)
  | string (value : Text) (quote : String)
  | number (text : Text)
  | boolean (b : Bool)
  /-- `obj.name`, from the object. -/
  | member (name : Text) (optional : Bool)
  /-- `obj.prop`, from the object and the property. -/
  | memberNode (optional : Bool)
  /-- A call, from the callee and the arguments. -/
  | call
  | newExpression
  /-- A method call, from the object and the arguments. -/
  | methodCall (name : Text)
  | assignment (operator : String)
  | binary (operator : String)
  | unary (operator : String)
  | expressionStatement
  | spread
  | array
  | formalParameters
  | arguments
  /-- A function, from the parameters and, last, the body. -/
  | arrow
  /-- An object, from the values of the keys. -/
  | object (keys : List Text)
  | parenthesized

/-- The node of a form; none if the number of operands does not fit. -/
def Form.build? : Form → List Node → Option Node
  | .identifier name, [] => some (Build.identifier name)
  | .propertyIdentifier name, [] => some (Build.propertyIdentifier name)
  | .string value quote, [] => some (Build.quoted value quote)
  | .number text, [] => some (Build.number text)
  | .boolean b, [] => some (Build.boolean b)
  | .member name optional, [o] =>
    some (Build.memberNode o (Build.propertyIdentifier name) optional)
  | .memberNode optional, [o, p] => some (Build.memberNode o p optional)
  | .call, callee :: args => some (Build.call callee args)
  | .newExpression, maker :: args => some (Build.newExpression maker args)
  | .methodCall name, o :: args => some (Build.methodCall o name args)
  | .assignment op, [l, r] => some (Build.assignmentWith l op r)
  | .binary op, [l, r] => some (Build.binary l op r)
  | .unary op, [a] => some (Build.unary op a)
  | .expressionStatement, [e] => some (Build.expressionStatement e)
  | .spread, [e] => some (Build.spread e)
  | .array, es => some (Build.array es)
  | .formalParameters, ps => some (Build.formalParameters ps)
  | .arguments, args => some (Build.arguments args)
  | .arrow, operands =>
    match operands.getLast? with
    | some body => some (Build.arrow operands.dropLast body)
    | none => none
  | .object keys, values =>
    if keys.length == values.length then some (Build.object (keys.zip values))
    else none
  | .parenthesized, [e] => some (Build.parenthesized e)
  | _, _ => none

/-- How a node is made. -/
inductive Recipe where
  /-- The node itself, which moves. -/
  | live (s : Selector)
  /-- A copy of the node. -/
  | copy (s : Selector)
  /-- A new node. -/
  | built (form : Form) (operands : List Recipe)
  /-- Nothing that can be made. -/
  | unknown
deriving Inhabited

namespace Workspace

/-- The operands with each but the last of several equal ones replaced
by an empty stand-in of the same kind, numbered from `next`. -/
def withStandIns (next : Nat) : List Node → List Node
  | [] => []
  | n :: ns =>
    if ns.any (·.id == n.id) then
      ⟨some next, n.kind, n.named, none, [], none, [], []⟩ :: withStandIns (next + 1) ns
    else n :: withStandIns next ns

/-- Builds a form from nodes of the workspace, which leave their
places. -/
def assemble (w : Workspace) (form : Form) (operands : List Nat) :
    Workspace × Except Fault Nat :=
  let nodes := (operands.filterMap w.find?).map (·.node.prune operands)
  let next := w.next + nodes.length
  match form.build? (withStandIns w.next nodes) with
  | none => (w, .error .noSuchForm)
  | some built =>
    let standIns := (List.range nodes.length).map (w.next + ·)
    let (w', i) := { w.withdraw operands with next := next }.add (built.prune standIns)
    (w', .ok i)

end Workspace

namespace Recipe

mutual

/-- Makes what a recipe describes and returns its identity. -/
def prepare (marks : List (String × Nat)) :
    Recipe → Workspace → Workspace × Except Fault Nat
  | .live s, w => (w, (Session.mk w marks).pickId s)
  | .copy s, w =>
    match (Session.mk w marks).pickId s with
    | .error f => (w, .error f)
    | .ok i => w.clone i
  | .built form operands, w =>
    match prepareAll marks operands w with
    | (w', .error f) => (w', .error f)
    | (w', .ok ids) => w'.assemble form ids
  | .unknown, w => (w, .error .noSuchForm)

/-- Makes what recipes describe, from left to right. -/
def prepareAll (marks : List (String × Nat)) :
    List Recipe → Workspace → Workspace × Except Fault (List Nat)
  | [], w => (w, .ok [])
  | r :: rs, w =>
    match prepare marks r w with
    | (w', .error f) => (w', .error f)
    | (w', .ok i) =>
      match prepareAll marks rs w' with
      | (w'', .error f) => (w'', .error f)
      | (w'', .ok is) => (w'', .ok (i :: is))

end

/-- The node that a recipe describes, built apart from any program. -/
def node? (r : Recipe) : Except Fault Node :=
  match r.prepare [] (.ofProgram (.branch .program [])) with
  | (_, .error f) => .error f
  | (w, .ok i) =>
    match w.find? i with
    | some c => .ok c.node
    | none => .error .noSuchNode

end Recipe

end Codemod
