/-
The lossless syntax tree.

Every token and every comment of a source text is a node, and the white
space in front of a node is the node's `lead`, so printing a tree gives
the text it was read from. A node carries an identity once it has been
placed in a tree; freshly built nodes have none until then.

`Node.code` is the text of a node without its own lead, `Node.render`
the text with it. `Node.walk` lists a subtree in source order, a node
before what it contains.
-/
import Codemod.Text.Point
import Codemod.Tree.Kind

namespace Codemod

/-- A node of the syntax tree. A leaf shows its `text`; any other node
shows its children and then its `tail`. -/
structure Node where
  /-- The identity, given when the node is placed in a tree. -/
  id : Option Nat
  /-- What the node is. -/
  kind : Kind
  /-- False for a bare token. -/
  named : Bool
  /-- The role in the parent. -/
  role : Option Role
  /-- The white space right before the node. -/
  lead : Text
  /-- The text of a leaf. -/
  text : Option Text
  /-- The children in source order. -/
  children : List Node
  /-- The text between the last child and the end of the node. -/
  tail : Text
deriving Inhabited

namespace Node

-- ============================================================ building

/-- A bare token. -/
def token (text : String) : Node :=
  ⟨none, Kind.ofName text, false, none, [], some text, [], []⟩

/-- A named leaf. -/
def leaf (s : Symbol) (text : Text) : Node :=
  ⟨none, s, true, none, [], some text, [], []⟩

/-- A named node with the given children. -/
def branch (s : Symbol) (children : List Node) : Node :=
  ⟨none, s, true, none, [], none, children, []⟩

/-- The node in a given role, behind the given white space. -/
def placed (n : Node) (role : Option Role) (lead : Text) : Node :=
  { n with role := role, lead := lead }

-- =========================================================== inspection

/-- The node's kind is the given grammar word. -/
def is (n : Node) (s : Symbol) : Bool := n.kind == .symbol s

/-- The node's kind is one of the given grammar words. -/
def isAny (n : Node) (ss : List Symbol) : Bool := ss.any n.is

/-- The grammar word that spells the node's kind. -/
def symbol? (n : Node) : Option Symbol :=
  match n.kind with
  | .symbol s => some s
  | .word _ => none

/-- The first child in a given role. -/
def child? (n : Node) (r : Role) : Option Node :=
  n.children.find? (·.role == some r)

/-- The children that are no bare tokens. -/
def namedChildren (n : Node) : List Node := n.children.filter (·.named)

/-- A node that is neither a bare token nor a comment. -/
def isOperand (n : Node) : Bool := n.named && !n.is .comment

/-- The children that are neither bare tokens nor comments. -/
def operands (n : Node) : List Node := n.children.filter isOperand

-- ============================================================= printing

mutual

/-- The text of a node without its own lead. -/
def code : Node → Text
  | ⟨_, _, _, _, _, some t, _, _⟩ => t
  | ⟨_, _, _, _, _, none, cs, tail⟩ => codeAll cs ++ tail

/-- The text of neighbouring nodes, each behind its lead. -/
def codeAll : List Node → Text
  | [] => []
  | c :: cs => c.lead ++ (code c ++ codeAll cs)

end

/-- The text of a node with its lead. -/
def render (n : Node) : Text := n.lead ++ n.code

-- ============================================================ traversal

mutual

/-- The nodes of a subtree, a node before what it contains. -/
def walk : Node → List Node
  | ⟨i, k, b, r, l, t, cs, z⟩ => ⟨i, k, b, r, l, t, cs, z⟩ :: walkAll cs

/-- The nodes of neighbouring subtrees in source order. -/
def walkAll : List Node → List Node
  | [] => []
  | c :: cs => walk c ++ walkAll cs

end

mutual

/-- The number of nodes of a subtree. -/
def size : Node → Nat
  | ⟨_, _, _, _, _, _, cs, _⟩ => sizeAll cs + 1

/-- The number of nodes of neighbouring subtrees. -/
def sizeAll : List Node → Nat
  | [] => 0
  | c :: cs => size c + sizeAll cs

end

/-- The identities in a subtree. -/
def ids (n : Node) : List Nat := n.walk.filterMap (·.id)

-- ============================================================ identities

mutual

/-- Gives every node of a subtree a new identity, counting from `next`,
and returns the first number left over. -/
def renumber (next : Nat) : Node → Node × Nat
  | ⟨_, k, b, r, l, t, cs, z⟩ =>
    let (cs', n) := renumberAll (next + 1) cs
    (⟨some next, k, b, r, l, t, cs', z⟩, n)

/-- Gives every node of neighbouring subtrees a new identity. -/
def renumberAll (next : Nat) : List Node → List Node × Nat
  | [] => ([], next)
  | c :: cs =>
    let (c', n) := renumber next c
    let (cs', m) := renumberAll n cs
    (c' :: cs', m)

end

mutual

/-- Gives an identity to every node of a subtree that has none. -/
def number (next : Nat) : Node → Node × Nat
  | ⟨some i, k, b, r, l, t, cs, z⟩ =>
    let (cs', n) := numberAll next cs
    (⟨some i, k, b, r, l, t, cs', z⟩, n)
  | ⟨none, k, b, r, l, t, cs, z⟩ =>
    let (cs', n) := numberAll (next + 1) cs
    (⟨some next, k, b, r, l, t, cs', z⟩, n)

/-- Gives an identity to every node of neighbouring subtrees that has
none. -/
def numberAll (next : Nat) : List Node → List Node × Nat
  | [] => ([], next)
  | c :: cs =>
    let (c', n) := number next c
    let (cs', m) := numberAll n cs
    (c' :: cs', m)

end

mutual

/-- The same subtree without identities: a copy yet to be placed. -/
def copy : Node → Node
  | ⟨_, k, b, r, l, t, cs, z⟩ => ⟨none, k, b, r, l, t, copyAll cs, z⟩

/-- Neighbouring subtrees without identities. -/
def copyAll : List Node → List Node
  | [] => []
  | c :: cs => copy c :: copyAll cs

end

/-- The node is one of those identified. -/
def isIn (n : Node) (gone : List Nat) : Bool :=
  match n.id with
  | some i => gone.contains i
  | none => false

mutual

/-- The subtree without the identified descendants. -/
def prune (gone : List Nat) : Node → Node
  | ⟨i, k, b, r, l, t, cs, z⟩ => ⟨i, k, b, r, l, t, pruneAll gone cs, z⟩

/-- Neighbouring subtrees without the identified nodes. -/
def pruneAll (gone : List Nat) : List Node → List Node
  | [] => []
  | c :: cs =>
    if c.isIn gone then pruneAll gone cs
    else prune gone c :: pruneAll gone cs

end

mutual

/-- The subtree with the descendant `target` replaced by what `f` makes
of its parent and itself. -/
def substitute (target : Nat) (f : Node → Node → Node) : Node → Node
  | ⟨i, k, b, r, l, t, cs, z⟩ =>
    ⟨i, k, b, r, l, t,
      substituteAll target f ⟨i, k, b, r, l, t, cs, z⟩ cs, z⟩

/-- The children of `parent` after such a replacement. -/
def substituteAll (target : Nat) (f : Node → Node → Node) (parent : Node) :
    List Node → List Node
  | [] => []
  | c :: cs =>
    if c.id == some target then f parent c :: substituteAll target f parent cs
    else substitute target f c :: substituteAll target f parent cs

end

mutual

/-- The node of a subtree with a given identity. -/
def find? (target : Nat) : Node → Option Node
  | ⟨i, k, b, r, l, t, cs, z⟩ =>
    if i == some target then some ⟨i, k, b, r, l, t, cs, z⟩
    else findAll? target cs

/-- The node of neighbouring subtrees with a given identity. -/
def findAll? (target : Nat) : List Node → Option Node
  | [] => none
  | c :: cs =>
    match find? target c with
    | some n => some n
    | none => findAll? target cs

end

end Node

end Codemod
