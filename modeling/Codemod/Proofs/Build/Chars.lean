/-
The characters of built expressions.

What a builder makes is printed as the characters of its operands with
punctuation between them. Rows of operands are told by recursion: the first
operand, then a comma and a blank in front of the next.
-/
import Codemod.Proofs.Parse.Quoted
import Codemod.Proofs.Tree.Literal
import Codemod.Tree.Build

namespace Codemod

open Text

namespace Node

@[simp] theorem lead_placed (n : Node) (r : Option Role) (l : Text) :
    (n.placed r l).lead = l := rfl

@[simp] theorem lead_token (t : String) : (token t).lead = [] := rfl

@[simp] theorem lead_branch (s : Symbol) (cs : List Node) : (branch s cs).lead = [] := rfl

/-- The characters a node is printed as. -/
def chars (n : Node) : List Char := n.code.chars

variable {n : Node} {s : Symbol}

@[simp] theorem chars_placed (n : Node) (r : Option Role) (l : Text) :
    (n.placed r l).chars = n.chars := by
  rw [chars, code_placed, chars]

@[simp] theorem chars_leaf (s : Symbol) (t : Text) : (leaf s t).chars = t.chars := by
  rw [chars, leaf, code]

@[simp] theorem chars_token (t : String) : (token t).chars = t.toList := by
  rw [chars, token, code, chars_ofString]

/-- The characters of neighbouring nodes, each behind its lead. -/
def charsAll (cs : List Node) : List Char := (codeAll cs).chars

@[simp] theorem charsAll_nil : charsAll [] = [] := rfl

@[simp] theorem charsAll_cons (c : Node) (cs : List Node) :
    charsAll (c :: cs) = c.lead.chars ++ (c.chars ++ charsAll cs) := by
  rw [charsAll, codeAll_cons, chars_append, chars_append]
  rfl

@[simp] theorem charsAll_append (cs ds : List Node) :
    charsAll (cs ++ ds) = charsAll cs ++ charsAll ds := by
  rw [charsAll, codeAll_append, chars_append]
  rfl

@[simp] theorem chars_branch (s : Symbol) (cs : List Node) :
    (branch s cs).chars = charsAll cs := by
  rw [chars, code_branch]
  rfl

end Node

namespace Build

open Node

variable {e l r o : Node} {op : String} {x : Text} {es : List Node}

-- ================================================================= rows

/-- Nodes with commas between them, the first one behind the given blank. -/
def row (lead : Text) : List Node → List Node
  | [] => []
  | [e] => [e.placed none lead]
  | e :: d :: es => e.placed none lead :: .token "," :: row [.scalar ' '] (d :: es)

/-- The characters of nodes with commas between them. -/
def rowChars : List Node → List Char
  | [] => []
  | [e] => e.chars
  | e :: d :: es => e.chars ++ ',' :: ' ' :: rowChars (d :: es)

theorem row_cons (lead : Text) (e : Node) (es : List Node) :
    row lead (e :: es) = e.placed none lead
      :: es.flatMap fun d => [.token ",", d.placed none [.scalar ' ']] := by
  induction es generalizing lead e with
  | nil => rfl
  | cons d es ih => rw [row, ih, List.flatMap_cons]; rfl

theorem commaSeparated_eq_row (es : List Node) : commaSeparated es = row [] es := by
  cases es with
  | nil => rfl
  | cons e es => rw [row_cons, commaSeparated]

theorem charsAll_row (lead : Text) (hne : es ≠ []) :
    charsAll (row lead es) = lead.chars ++ rowChars es := by
  induction es generalizing lead with
  | nil => exact absurd rfl hne
  | cons e es ih =>
      cases es with
      | nil => simp [row, rowChars]
      | cons d es =>
          rw [row, charsAll_cons, charsAll_cons, ih _ (List.cons_ne_nil _ _), rowChars]
          simp

@[simp] theorem charsAll_row_nil (es : List Node) : charsAll (row [] es) = rowChars es := by
  cases es with
  | nil => rfl
  | cons e es => rw [charsAll_row [] (List.cons_ne_nil _ _), chars_nil, List.nil_append]

-- ============================================================== builders

@[simp] theorem chars_parenthesized (e : Node) :
    (parenthesized e).chars = '(' :: (e.chars ++ [')']) := by
  simp [parenthesized]

@[simp] theorem chars_member (o : Node) (x : Text) : (member o x).chars
    = (operand o .memberExpression .object).chars ++ '.' :: x.chars := by
  simp [member, memberNode, inRole, propertyIdentifier]

@[simp] theorem chars_arguments (es : List Node) :
    (arguments es).chars = '(' :: (rowChars es ++ [')']) := by
  simp [arguments, commaSeparated_eq_row]

@[simp] theorem chars_call (e : Node) (es : List Node) : (call e es).chars
    = (operand e .callExpression .function).chars ++ '(' :: (rowChars es ++ [')']) := by
  simp [call, inRole]

@[simp] theorem chars_newExpression (e : Node) (es : List Node) : (newExpression e es).chars
    = 'n' :: 'e' :: 'w' :: ' ' :: ((operand e .newExpression .constructorOf).chars
      ++ '(' :: (rowChars es ++ [')'])) := by
  simp [newExpression, inRole, spaced]

@[simp] theorem chars_assignment (l r : Node) :
    (assignment l r).chars = l.chars ++ ' ' :: '=' :: ' ' :: r.chars := by
  simp [assignment, assignmentWith, inRole, spaced, spacedToken]

/-- The left operand of a binary expression, in parentheses where it needs
them. -/
def leftOperand (op : String) (l : Node) : Node :=
  if needsParentheses l.kind Symbol.binaryExpression (some .left)
      || (op == "**" && l.kind.isAny [.unaryExpression, .awaitExpression]) then
    parenthesized l
  else l

@[simp] theorem chars_binary (l r : Node) (op : String) : (binary l op r).chars
    = (leftOperand op l).chars ++ ' ' :: (op.toList
      ++ ' ' :: (operand r .binaryExpression .right).chars) := by
  simp [binary, inRole, spaced, leftOperand, operand]

@[simp] theorem chars_spread (e : Node) : (spread e).chars
    = '.' :: '.' :: '.' :: (operand e .spreadElement .argument).chars := by
  simp [spread]

@[simp] theorem chars_array (es : List Node) :
    (array es).chars = '[' :: (rowChars es ++ [']']) := by
  simp [array, commaSeparated_eq_row]

@[simp] theorem chars_formalParameters (es : List Node) :
    (formalParameters es).chars = '(' :: (rowChars es ++ [')']) := by
  simp [formalParameters, commaSeparated_eq_row]

@[simp] theorem chars_pair (x : Text) (e : Node) :
    (pair x e).chars = x.chars ++ ':' :: ' ' :: e.chars := by
  simp [pair, inRole, spaced, propertyIdentifier]

/-- The properties of an object literal as they are built. -/
def pairsOf (ps : List (Text × Node)) : List Node := ps.map fun p => pair p.1 p.2

/-- The blank in front of the brace that closes an object literal. -/
def braceLead (ps : List (Text × Node)) : List Char := if ps.isEmpty then [] else [' ']

theorem placed_pair (x : Text) (e : Node) : (pair x e).placed none [.scalar ' '] = pair x e := rfl

theorem object_eq (ps : List (Text × Node)) : object ps
    = branch .object (.token "\x7b" :: row [.scalar ' '] (pairsOf ps)
      ++ [(Node.token "\x7d").placed none (ofChars (braceLead ps))]) := by
  cases ps with
  | nil => rfl
  | cons p ps =>
      have hrow : row [.scalar ' '] (pairsOf (p :: ps))
          = pair p.1 p.2 :: ps.flatMap fun q => [.token ",", pair q.1 q.2] := by
        rw [pairsOf, List.map_cons, row_cons, List.flatMap_map]
        simp only [placed_pair]
      rw [hrow]
      rfl

@[simp] theorem chars_object (ps : List (Text × Node)) : (object ps).chars
    = '\x7b' :: (braceLead ps ++ (rowChars (pairsOf ps) ++ (braceLead ps ++ ['\x7d']))) := by
  rw [object_eq]
  cases ps with
  | nil => simp [pairsOf, row, rowChars, braceLead]
  | cons p ps =>
      have hne : pairsOf (p :: ps) ≠ [] := List.cons_ne_nil _ _
      simp [charsAll_row _ hne, braceLead]

end Build

end Codemod
