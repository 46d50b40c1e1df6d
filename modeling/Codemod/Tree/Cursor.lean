/-
Positions in a tree.

A cursor is a node together with its ancestors and the place taken in
each, so that a query can look outwards as well as inwards. Cursors into
one tree are told apart by the identities of their nodes.
-/
import Codemod.Tree.Node

namespace Codemod

/-- A node in its place. -/
structure Cursor where
  /-- The node itself. -/
  node : Node
  /-- The ancestors, the parent first, each with the index of the child
  that leads to the node. -/
  above : List (Node × Nat)
deriving Inhabited

namespace Cursor

/-- The cursor at the top of a tree. -/
def top (n : Node) : Cursor := ⟨n, []⟩

/-- The kind of the node is the given grammar word. -/
def is (c : Cursor) (s : Symbol) : Bool := c.node.is s

/-- The kind of the node is one of the given grammar words. -/
def isAny (c : Cursor) (ss : List Symbol) : Bool := c.node.isAny ss

/-- The text of the node. -/
def code (c : Cursor) : Text := c.node.code

/-- Both cursors are at one node. -/
def same (a b : Cursor) : Bool := a.node.id == b.node.id

-- ============================================================= outwards

/-- The parent. -/
def parent? (c : Cursor) : Option Cursor :=
  match c.above with
  | [] => none
  | (p, _) :: up => some ⟨p, up⟩

/-- The ancestors described by a list of places. -/
def ancestorsIn : List (Node × Nat) → List Cursor
  | [] => []
  | (p, _) :: up => ⟨p, up⟩ :: ancestorsIn up

/-- The ancestors, the parent first. -/
def ancestors (c : Cursor) : List Cursor := ancestorsIn c.above

/-- The topmost ancestor of a node in given places. -/
def rootIn (n : Node) : List (Node × Nat) → Node
  | [] => n
  | (p, _) :: up => rootIn p up

/-- The top of the tree. -/
def root (c : Cursor) : Cursor := top (rootIn c.node c.above)

/-- The indices that lead from the top to the node. -/
def path (c : Cursor) : List Nat := (c.above.map (·.2)).reverse

/-- The outermost parentheses around a node in given places. -/
def climbIn (n : Node) : List (Node × Nat) → Cursor
  | [] => ⟨n, []⟩
  | (p, i) :: up =>
    if p.is .parenthesizedExpression then climbIn p up else ⟨n, (p, i) :: up⟩

/-- The node with all parentheses around it. -/
def climb (c : Cursor) : Cursor := climbIn c.node c.above

-- ============================================================== inwards

/-- The cursors of neighbouring children, the first at index `i`. -/
def childrenFrom (parent : Node) (above : List (Node × Nat)) (i : Nat) :
    List Node → List Cursor
  | [] => []
  | c :: cs => ⟨c, (parent, i) :: above⟩ :: childrenFrom parent above (i + 1) cs

/-- The children. -/
def children (c : Cursor) : List Cursor :=
  childrenFrom c.node c.above 0 c.node.children

/-- The first child in a given role. -/
def child? (c : Cursor) (r : Role) : Option Cursor :=
  c.children.find? (·.node.role == some r)

/-- The children that are neither bare tokens nor comments. -/
def operands (c : Cursor) : List Cursor := c.children.filter (·.node.isOperand)

/-- The child at an index. -/
def childAt? (c : Cursor) (i : Nat) : Option Cursor := c.children[i]?

/-- The node that a list of indices leads to. -/
def follow? (c : Cursor) : List Nat → Option Cursor
  | [] => some c
  | i :: is =>
    match c.childAt? i with
    | some d => d.follow? is
    | none => none

mutual

/-- The cursors of a subtree in given places, in source order. -/
def walkNode (above : List (Node × Nat)) : Node → List Cursor
  | ⟨i, k, b, r, l, t, cs, z⟩ =>
    ⟨⟨i, k, b, r, l, t, cs, z⟩, above⟩
      :: walkNodes ⟨i, k, b, r, l, t, cs, z⟩ above 0 cs

/-- The cursors below neighbouring children, in source order. -/
def walkNodes (parent : Node) (above : List (Node × Nat)) (i : Nat) :
    List Node → List Cursor
  | [] => []
  | c :: cs =>
    walkNode ((parent, i) :: above) c ++ walkNodes parent above (i + 1) cs

end

/-- The nodes of the subtree in source order, a node before what it
contains. -/
def walk (c : Cursor) : List Cursor := walkNode c.above c.node

mutual

/-- The cursors of a subtree in source order, nothing below a node at
which the walk stops. -/
def walkNodeUntil (stop : Node → Bool) (above : List (Node × Nat)) :
    Node → List Cursor
  | ⟨i, k, b, r, l, t, cs, z⟩ =>
    ⟨⟨i, k, b, r, l, t, cs, z⟩, above⟩ ::
      if stop ⟨i, k, b, r, l, t, cs, z⟩ then []
      else walkNodesUntil stop ⟨i, k, b, r, l, t, cs, z⟩ above 0 cs

/-- The cursors below neighbouring children of such a walk. -/
def walkNodesUntil (stop : Node → Bool) (parent : Node)
    (above : List (Node × Nat)) (i : Nat) : List Node → List Cursor
  | [] => []
  | c :: cs =>
    walkNodeUntil stop ((parent, i) :: above) c
      ++ walkNodesUntil stop parent above (i + 1) cs

end

/-- The nodes below this one in source order; a node at which the walk
stops is listed, what it contains is not. -/
def walkBelowUntil (stop : Node → Bool) (c : Cursor) : List Cursor :=
  walkNodesUntil stop c.node c.above 0 c.node.children

/-- The nodes of the subtree whose kind is one of those given. -/
def findAll (c : Cursor) (ss : List Symbol) : List Cursor :=
  c.walk.filter (·.isAny ss)

/-- The node of the subtree with a given identity. -/
def findId? (c : Cursor) (i : Nat) : Option Cursor :=
  c.walk.find? (·.node.id == some i)

-- ================================================================ order

/-- One path comes before another: at the first difference its index is
smaller, or it ends. -/
def pathBefore : List Nat → List Nat → Bool
  | [], [] => false
  | [], _ :: _ => true
  | _ :: _, [] => false
  | i :: is, j :: js => i < j || (i == j && pathBefore is js)

/-- The first node starts before the second in source order and does not
contain it. -/
def precedes (a b : Cursor) : Bool :=
  !a.path.isPrefixOf b.path && pathBefore a.path b.path

-- ========================================================== parentheses

/-- The operand inside parentheses, at most `fuel` deep. -/
def unparenWithin : Nat → Cursor → Cursor
  | 0, c => c
  | fuel + 1, c =>
    if c.is .parenthesizedExpression then
      match c.operands with
      | [d] => unparenWithin fuel d
      | _ => c
    else c

/-- The expression without the parentheses around it. -/
def unparen (c : Cursor) : Cursor := unparenWithin c.node.size c

end Cursor

end Codemod
