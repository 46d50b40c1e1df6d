/-
A parse in progress.

The parser works on a stack of finished trees and the characters still
to be read. `Progress src` carries the law that nothing is ever lost or
made up: the trees printed one after the other, followed by the
characters left, are the source. Every step below keeps the law, so
whatever grammar is built from these steps is lossless.

A token is pushed with the white space in front of it; `gather` closes
a node around the trees above a mark. Comments are pushed before a mark
is set, so that they become children of the innermost node that has
tokens on both sides of them.
-/
import Codemod.Parse.Lexeme
import Codemod.Tree.Node

namespace Codemod

namespace Node

-- ================================================ printing of neighbours

theorem codeAll_append (a b : List Node) :
    codeAll (a ++ b) = codeAll a ++ codeAll b := by
  induction a with
  | nil => simp [codeAll]
  | cons c cs ih => simp [codeAll, ih, List.append_assoc]

@[simp] theorem codeAll_singleton (n : Node) : codeAll [n] = n.render := by
  simp [codeAll, render]

@[simp] theorem code_placed (n : Node) (r : Option Role) (l : Text) :
    (n.placed r l).code = n.code := by
  obtain ⟨_, _, _, _, _, t, _, _⟩ := n
  cases t <;> rfl

/-- A node closed around its children: it starts where its first child
starts, so the lead of that child becomes its own. -/
def gather (s : Symbol) : List Node → Node
  | [] => branch s []
  | c :: cs =>
    (branch s (c.placed c.role [] :: cs)).placed none c.lead

theorem code_branch (s : Symbol) (cs : List Node) :
    (branch s cs).code = codeAll cs := by
  simp [branch, code]

theorem codeAll_cons (c : Node) (cs : List Node) :
    codeAll (c :: cs) = c.lead ++ (c.code ++ codeAll cs) := by
  rw [codeAll]

theorem render_gather (s : Symbol) (cs : List Node) :
    (gather s cs).render = codeAll cs := by
  cases cs with
  | nil => rfl
  | cons c cs =>
    show c.lead ++ (Node.placed _ none c.lead).code = _
    rw [code_placed, code_branch, codeAll_cons, codeAll_cons, code_placed]
    rfl

theorem codeAll_map {f : Node → Node} (h : ∀ n, (f n).render = n.render)
    (l : List Node) : codeAll (l.map f) = codeAll l := by
  induction l with
  | nil => rfl
  | cons c cs ih =>
    have hc : (f c).lead ++ (f c).code = c.lead ++ c.code := h c
    simp only [List.map_cons, codeAll, ih, ← List.append_assoc, hc]

end Node

namespace Parse

/-- The state of a parse of `src`. -/
structure Progress (src : List Char) where
  /-- The finished trees, the last one first. -/
  trees : List Node
  /-- The characters still to be read. -/
  rest : List Char
  /-- Trees and remaining characters make up the source. -/
  faithful : Node.codeAll trees.reverse ++ Text.ofChars rest = Text.ofChars src

namespace Progress

variable {src : List Char}

/-- Nothing has been read. -/
def start (src : List Char) : Progress src := ⟨[], src, rfl⟩

/-- Reads a leaf of `len` characters behind `blank` characters of white
space. -/
def push (kind : Kind) (named : Bool) (role : Option Role) (blank len : Nat)
    (s : Progress src) : Progress src where
  trees :=
    ⟨none, kind, named, role, Text.ofChars (s.rest.take blank),
      some (Text.ofChars ((s.rest.drop blank).take len)), [], []⟩ :: s.trees
  rest := (s.rest.drop blank).drop len
  faithful := by
    rw [← s.faithful, List.reverse_cons, Node.codeAll_append]
    simp only [Node.codeAll_singleton, Node.render, Node.code,
      List.append_assoc, ← Text.ofChars_append, List.take_append_drop]

/-- Closes a node around the trees above the height `mark`. -/
def gather (mark : Nat) (sym : Symbol) (s : Progress src) : Progress src where
  trees :=
    Node.gather sym (s.trees.take (s.trees.length - mark)).reverse
      :: s.trees.drop (s.trees.length - mark)
  rest := s.rest
  faithful := by
    rw [← s.faithful, List.reverse_cons, Node.codeAll_append,
      Node.codeAll_singleton, Node.render_gather, ← Node.codeAll_append,
      ← List.reverse_append, List.take_append_drop]

/-- Revises the last tree without changing its text. -/
def revise (f : Node → Node) (h : ∀ n, (f n).render = n.render)
    (s : Progress src) : Progress src where
  trees := (s.trees.take 1).map f ++ s.trees.drop 1
  rest := s.rest
  faithful := by
    rw [← s.faithful, List.reverse_append, Node.codeAll_append,
      ← List.map_reverse, Node.codeAll_map h, ← Node.codeAll_append,
      ← List.reverse_append, List.take_append_drop]

/-- The number of finished trees. -/
def height (s : Progress src) : Nat := s.trees.length

/-- The last finished tree. -/
def last? (s : Progress src) : Option Node := s.trees.head?

/-- Reads the comments in front of the next token, at most `fuel`. -/
def comments : Nat → Progress src → Progress src
  | 0, s => s
  | fuel + 1, s =>
    let blank := runLength isGap s.rest
    let n := commentLength (s.rest.drop blank)
    if n = 0 then s
    else comments fuel (s.push Symbol.comment true none blank n)

/-- Reads the comments in front of the next token. -/
def flush (s : Progress src) : Progress src := s.comments s.rest.length

/-- The tree of a finished parse: the white space that is left becomes
the tail, or the lead when there is nothing else. -/
def close (s : Progress src) : Node :=
  match s.trees with
  | [] => (Node.branch .program []).placed none (Text.ofChars s.rest)
  | _ :: _ =>
    { Node.gather .program s.trees.reverse with tail := Text.ofChars s.rest }

theorem render_close (s : Progress src) : s.close.render = Text.ofChars src := by
  rw [← s.faithful]
  obtain ⟨trees, rest, h⟩ := s
  cases trees with
  | nil => simp [close, Node.branch, Node.placed, Node.render, Node.code, Node.codeAll]
  | cons t ts =>
    simp only [close]
    have hg := Node.render_gather .program (t :: ts).reverse
    cases hc : (t :: ts).reverse with
    | nil => simp at hc
    | cons c cs =>
      rw [hc] at hg
      rw [← hg]
      simp [Node.gather, Node.branch, Node.placed, Node.render, Node.code,
        List.append_assoc]

end Progress

end Parse

end Codemod
