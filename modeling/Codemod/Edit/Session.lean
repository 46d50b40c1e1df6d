/-
Sessions: a workspace with names for some of its nodes.

Nodes are picked by the way that leads to them from the program, by a
name given to them before, or by what they are.
-/
import Codemod.Edit.Move

namespace Codemod

/-- How a node is picked. -/
inductive Selector where
  /-- The indices that lead to the node from the program. -/
  | path (indices : List Nat)
  /-- The name under which the node was kept. -/
  | mark (name : String)
  /-- Of the nodes with this kind and this text, the one at an index;
  a negative index counts from the end. -/
  | search (kind : Option Kind) (code : Option Text) (index : Int)

/-- A workspace and the nodes kept by name. -/
structure Session where
  /-- The workspace. -/
  workspace : Workspace
  /-- Names and the identities they stand for, the latest first. -/
  marks : List (String × Nat)

/-- The item at an index; a negative index counts from the end. -/
def itemAt? {α : Type} (items : List α) (index : Int) : Option α :=
  if 0 ≤ index then items[index.toNat]?
  else if -index ≤ items.length then items[(items.length + index).toNat]?
  else none

namespace Session

/-- The session of a freshly parsed program. -/
def ofProgram (n : Node) : Session := ⟨.ofProgram n, []⟩

/-- The nodes of the program with a given kind and text. -/
def matching (s : Session) (kind : Option Kind) (code : Option Text) : List Cursor :=
  (Cursor.top s.workspace.program).walk.filter fun c =>
    kind.all (· == c.node.kind) && code.all (· == c.code)

/-- The node that a selector picks. -/
def pick (s : Session) : Selector → Except Fault Cursor
  | .path is =>
    match (Cursor.top s.workspace.program).follow? is with
    | some c => .ok c
    | none => .error .noSuchNode
  | .mark name =>
    match (s.marks.lookup name).bind s.workspace.find? with
    | some c => .ok c
    | none => .error .noSuchMark
  | .search kind code index =>
    match itemAt? (s.matching kind code) index with
    | some c => .ok c
    | none => .error .noSuchNode

/-- All the nodes that a selector describes. -/
def pickAll (s : Session) : Selector → Except Fault (List Cursor)
  | .search kind code _ => .ok (s.matching kind code)
  | sel => (s.pick sel).map fun c => [c]

/-- The identity of the node that a selector picks. -/
def pickId (s : Session) (sel : Selector) : Except Fault Nat :=
  match s.pick sel with
  | .error f => .error f
  | .ok c =>
    match c.node.id with
    | some i => .ok i
    | none => .error .noSuchNode

/-- The session with a node kept by name. -/
def markAs (s : Session) (name : Option String) (i : Nat) : Session :=
  match name with
  | some k => { s with marks := (k, i) :: s.marks }
  | none => s

end Session

end Codemod
