/-
Edits: changes to a program, one after the other.

The node to be changed is picked before anything is built. A change that
fails leaves the workspace as far as it had come.
-/
import Codemod.Edit.Recipe
import Codemod.Rule.Registry

namespace Codemod

/-- One change, or one look. -/
inductive Edit where
  /-- Puts what a recipe makes in the place of a node. -/
  | replace (target : Selector) (new : Recipe)
  /-- Puts what a recipe makes behind the last child of a node. -/
  | append (target : Selector) (child : Recipe)
  /-- Takes a node out and hands its lead on. -/
  | remove (target : Selector)
  /-- Takes a node out as it is. -/
  | detach (target : Selector)
  /-- Copies a node. -/
  | clone (target : Selector)
  /-- Picks a node. -/
  | get (target : Selector)
  /-- Makes a node. -/
  | build (new : Recipe)

namespace Session

/-- The session with another workspace. -/
def withWorkspace (s : Session) (w : Workspace) : Session := { s with workspace := w }

/-- Puts what a recipe makes in the place of a node. -/
def replaceWith (s : Session) (target : Nat) (r : Recipe) :
    Workspace × Except Fault Nat :=
  match r.prepare s.marks s.workspace with
  | (w, .error f) => (w, .error f)
  | (w, .ok i) => w.replace target i

/-- Puts what a recipe makes behind the last child of a node. -/
def appendTo (s : Session) (target : Nat) (r : Recipe) :
    Workspace × Except Fault Nat :=
  match r.prepare s.marks s.workspace with
  | (w, .error f) => (w, .error f)
  | (w, .ok i) => (w.append target i, .ok i)

/-- Makes a change to the node it is about. -/
def editAt (s : Session) (target : Selector)
    (f : Nat → Workspace × Except Fault Nat) : Workspace × Except Fault Nat :=
  match s.pickId target with
  | .error e => (s.workspace, .error e)
  | .ok i => f i

/-- The workspace after an edit, and the node it is about. -/
def edited (s : Session) : Edit → Workspace × Except Fault Nat
  | .replace t r => s.editAt t fun i => s.replaceWith i r
  | .append t r => s.editAt t fun i => s.appendTo i r
  | .remove t => s.editAt t fun i => (s.workspace.remove i, .ok i)
  | .detach t => s.editAt t fun i => (s.workspace.detach i, .ok i)
  | .clone t => s.editAt t fun i => s.workspace.clone i
  | .get t => s.editAt t fun i => (s.workspace, .ok i)
  | .build r => r.prepare s.marks s.workspace

/-- Performs an edit. The node it is about is described, and kept under
a name on demand. -/
def perform (s : Session) (e : Edit) (name : Option String) :
    Session × Except Fault Description :=
  match s.edited e with
  | (w, .error f) => (s.withWorkspace w, .error f)
  | (w, .ok i) =>
    let after := (s.withWorkspace w).markAs name i
    match w.find? i with
    | some c => (after, .ok (w.describe c.node))
    | none => (after, .error .noSuchNode)

/-- Applies a rule of the library. -/
def applyRule (s : Session) (name : String) (context : RuleContext) :
    Session × Except Fault Bool :=
  match Registry.builtin.get name with
  | .error f => (s, .error f)
  | .ok rule =>
    let (w, result) := rule.apply context s.workspace
    (s.withWorkspace w, result)

end Session

end Codemod
