/-
Moving single nodes.

A node has one place at a time. Taking it out leaves a tree of its own
in the workspace, so that it can be described, changed and put back
later. Nothing here depends on what a node means; parentheses and white
space are kept right by `Workspace.fitted` alone.
-/
import Codemod.Tree.Workspace

namespace Codemod

/-- What is said of a node. -/
structure Description where
  /-- Its kind. -/
  kind : Kind
  /-- Its text. -/
  code : Text
  /-- The way to it from the program, if it is part of it. -/
  path : Option (List Nat)

namespace Workspace

/-- The node has a place in the program. -/
def owns (w : Workspace) (c : Cursor) : Bool := c.root.same (.top w.program)

/-- What is said of a node of the workspace, or of a copy. -/
def describe (w : Workspace) (n : Node) : Description :=
  ⟨n.kind, n.code, (n.id.bind w.findInProgram?).map (·.path)⟩

/-- The workspace without the given nodes: each is taken out of its
place, and a tree that is one of them is dropped. -/
def withdraw (w : Workspace) (gone : List Nat) : Workspace :=
  { w with
    program := w.program.prune gone
    loose := (w.loose.filter fun n => !n.isIn gone).map (·.prune gone) }

/-- The workspace with one more tree. -/
def keep (w : Workspace) (n : Node) : Workspace := { w with loose := n :: w.loose }

/-- The workspace with a fresh tree, and the identity of its top. -/
def add (w : Workspace) (n : Node) : Workspace × Nat :=
  let (n', next) := n.number w.next
  ({ w with loose := n' :: w.loose, next := next }, n'.id.getD w.next)

/-- Takes a node out of its place. -/
def detach (w : Workspace) (i : Nat) : Workspace :=
  match w.find? i with
  | some c => if c.above.isEmpty then w else (w.withdraw [i]).keep c.node
  | none => w

/-- Takes a node out of its place and gives its lead to the node behind
it. -/
def remove (w : Workspace) (i : Nat) : Workspace :=
  match w.find? i with
  | none => w
  | some c =>
    match c.parent?.bind (·.node.id) with
    | none => w
    | some p =>
      let drop (n : Node) : Node :=
        { n with children := Node.dropHandingLead i n.children }
      (w.mapTrees (Node.update p drop)).keep c.node

/-- Moves a node to the end of another's children. -/
def append (w : Workspace) (parent child : Nat) : Workspace :=
  match w.find? child with
  | none => w
  | some c =>
    let rest := w.withdraw [child]
    match rest.find? parent with
    | none => w
    | some _ =>
      rest.mapTrees (Node.update parent fun n =>
        { n with children := n.children ++ [c.node] })

/-- A copy of a node, as a tree of its own. -/
def clone (w : Workspace) (i : Nat) : Workspace × Except Fault Nat :=
  match w.find? i with
  | none => (w, .error .noSuchNode)
  | some c =>
    let (w', j) := w.add c.node.copy
    (w', .ok j)

/-- Moves a node into the place of another. The node replaced has to
have a place, and keeps none. -/
def replace (w : Workspace) (old new : Nat) : Workspace × Except Fault Nat :=
  match (w.find? old).bind (·.parent?), w.find? new with
  | none, _ => (w, .error .replacesDetached)
  | _, none => (w, .error .noSuchNode)
  | some _, some d =>
    if old == new then (w.detach old, .error .replacesItself)
    else
      let rest := w.withdraw [new]
      match rest.find? old with
      | none => (w, .error .replacesItself)
      | some c =>
        match c.parent? with
        | none => (w, .error .replacesItself)
        | some p =>
          let placed := ((fitted p.node c.node d.node).number rest.next).1
          (rest.splice p.node c.node d.node, .ok (placed.id.getD new))

end Workspace

end Codemod
