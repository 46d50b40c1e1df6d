/-
A program under change.

A workspace holds the program, the trees that have been taken out of it
or not yet put in, and the next free identity. Replacing a node keeps
its white space and its role, and puts parentheses around a replacement
that binds looser than its place allows. What is left of the replaced
node stays in the workspace as a tree of its own.
-/
import Codemod.Fault
import Codemod.Tree.Build
import Codemod.Tree.Cursor

namespace Codemod

namespace Node

mutual

/-- The subtree with the node `target` changed by `f`. -/
def update (target : Nat) (f : Node → Node) : Node → Node
  | ⟨i, k, b, r, l, t, cs, z⟩ =>
    if i == some target then f ⟨i, k, b, r, l, t, cs, z⟩
    else ⟨i, k, b, r, l, t, updateAll target f cs, z⟩

/-- Neighbouring subtrees with the node `target` changed by `f`. -/
def updateAll (target : Nat) (f : Node → Node) : List Node → List Node
  | [] => []
  | c :: cs => update target f c :: updateAll target f cs

end

/-- The children without `target`, whose lead goes to the child behind
it. -/
def dropHandingLead (target : Nat) : List Node → List Node
  | [] => []
  | c :: cs =>
    if c.id == some target then
      match cs with
      | [] => []
      | d :: ds => d.placed d.role c.lead :: ds
    else c :: dropHandingLead target cs

end Node

/-- A program and the trees beside it. -/
structure Workspace where
  /-- The program. -/
  program : Node
  /-- The trees that are not part of the program. -/
  loose : List Node
  /-- The next free identity. -/
  next : Nat

namespace Workspace

/-- The workspace of a freshly parsed program. -/
def ofProgram (n : Node) : Workspace := ⟨n, [], n.size⟩

/-- The trees of the workspace, the program first. -/
def trees (w : Workspace) : List Node := w.program :: w.loose

/-- A node of the workspace. -/
def find? (w : Workspace) (i : Nat) : Option Cursor :=
  w.trees.findSome? fun n => (Cursor.top n).findId? i

/-- A node of the program. -/
def findInProgram? (w : Workspace) (i : Nat) : Option Cursor :=
  (Cursor.top w.program).findId? i

/-- The text of the program. -/
def render (w : Workspace) : Text := w.program.render

/-- Every tree changed by one function. -/
def mapTrees (f : Node → Node) (w : Workspace) : Workspace :=
  { w with program := f w.program, loose := w.loose.map f }

/-- The node and its parent's kind decide how a replacement is written:
with the lead and the role of the node, in parentheses if need be. -/
def fitted (parent old new : Node) : Node :=
  let wrapped :=
    if needsParentheses new.kind parent.kind old.role then
      Build.parenthesized new
    else new
  wrapped.placed old.role old.lead

/-- The program with the node `old`, a child of `parent`, replaced. The
replacement may hold nodes of the old one. -/
def splice (w : Workspace) (parent old new : Node) : Workspace :=
  match old.id with
  | none => w
  | some target =>
    let (placed, next) := (fitted parent old new).number w.next
    let remains := (old.prune placed.ids).placed old.role []
    { program := w.program.substitute target fun _ _ => placed
      loose := remains :: w.loose.map (·.substitute target fun _ _ => placed)
      next := next }

end Workspace

end Codemod
