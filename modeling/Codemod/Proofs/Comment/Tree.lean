/-
The comments of a tree.

A comment is a leaf like any other, with the text of the comment for its
text. The comments of a tree, in source order (`Node.comments`), do not
depend on identities, and built nodes have those of their operands only.

A replacement in the program leaves the comments before and behind it
alone (`Workspace.comments_splice`).
-/
import Codemod.Proofs.Tree.Splice

namespace Codemod

namespace Node

/-- The text of the node itself, if it is a comment. -/
def ownComments (n : Node) : List Text :=
  if n.named && n.is .comment then n.text.toList else []

/-- The texts of the comments in a subtree, in source order. -/
def comments (n : Node) : List Text := n.walk.flatMap ownComments

theorem comments_eq (n : Node) :
    n.comments = n.ownComments ++ n.children.flatMap comments := by
  rw [comments, walk_eq, List.flatMap_cons, List.flatMap_assoc]
  rfl

theorem comments_sublist_of_mem_children {n c : Node} (h : c ∈ n.children) :
    c.comments.Sublist n.comments := by
  obtain ⟨before, after, hcs⟩ := List.append_of_mem h
  rw [comments_eq n, hcs, List.flatMap_append, List.flatMap_cons]
  refine List.Sublist.trans ?_ (List.sublist_append_right _ _)
  refine List.Sublist.trans ?_ (List.sublist_append_right _ _)
  exact List.sublist_append_left _ _

/-- The comments of a part of a tree are some of the tree's. -/
theorem comments_sublist_of_mem_walk {n m : Node} (h : m ∈ n.walk) :
    m.comments.Sublist n.comments := by
  induction n using Node.ind with
  | h n ih =>
      rcases mem_walk_iff.1 h with rfl | ⟨c, hc, hm⟩
      · exact List.Sublist.refl _
      · exact (ih c hc hm).trans (comments_sublist_of_mem_children hc)

-- ============================================================ identities

@[simp] theorem comments_placed (n : Node) (r : Option Role) (l : Text) :
    (n.placed r l).comments = n.comments := by
  rw [comments_eq, comments_eq n]
  rfl

@[simp] theorem comments_copy (n : Node) : n.copy.comments = n.comments := by
  induction n using Node.ind with
  | h n ih =>
      rw [copy_eq, comments_eq, comments_eq n, List.flatMap_map]
      exact congrArg (_ ++ ·) (List.flatMap_congr ih)

@[simp] theorem comments_number (k : Nat) (n : Node) :
    (n.number k).1.comments = n.comments := by
  rw [← comments_copy, copy_number, comments_copy]

theorem comments_of_not {n : Node} (h : (n.named && n.is .comment) = false) :
    n.comments = n.children.flatMap comments := by
  rw [comments_eq, ownComments, h]
  rfl

@[simp] theorem comments_token (t : String) : (token t).comments = [] :=
  comments_of_not rfl

theorem comments_leaf {s : Symbol} (t : Text) (h : s ≠ .comment) :
    (leaf s t).comments = [] :=
  comments_of_not (by simpa [leaf, is] using h)

theorem comments_branch {s : Symbol} (cs : List Node) (h : s ≠ .comment) :
    (branch s cs).comments = cs.flatMap comments :=
  comments_of_not (by simpa [branch, is] using h)

end Node

namespace Build

open Node

-- ======================================================= what is built

@[simp] theorem comments_parenthesized (e : Node) :
    (parenthesized e).comments = e.comments := by
  simp [parenthesized, comments_branch]

@[simp] theorem comments_operand (e : Node) (s : Symbol) (r : Role) :
    (operand e s r).comments = e.comments := by
  unfold operand
  split <;> simp

@[simp] theorem comments_inRole (n : Node) (r : Role) :
    (inRole n r).comments = n.comments := comments_placed n _ _

@[simp] theorem comments_spaced (n : Node) (r : Role) :
    (spaced n r).comments = n.comments := comments_placed n _ _

@[simp] theorem comments_spacedToken (t : String) :
    (spacedToken t).comments = [] := by
  rw [spacedToken, comments_placed, comments_token]

@[simp] theorem comments_commaSeparated (es : List Node) :
    (commaSeparated es).flatMap comments = es.flatMap comments := by
  cases es with
  | nil => rfl
  | cons e es =>
      simp only [commaSeparated, List.flatMap_cons, comments_placed,
        List.flatMap_assoc, comments_token, List.nil_append, List.flatMap_nil,
        List.append_nil]

@[simp] theorem comments_identifier (t : Text) : (identifier t).comments = [] :=
  comments_leaf t (by decide)

@[simp] theorem comments_propertyIdentifier (t : Text) :
    (propertyIdentifier t).comments = [] := comments_leaf t (by decide)

@[simp] theorem comments_number (t : Text) : (number t).comments = [] :=
  comments_leaf t (by decide)

@[simp] theorem comments_boolean (b : Bool) : (boolean b).comments = [] := by
  cases b <;> exact comments_leaf _ (by decide)

@[simp] theorem comments_string (t : Text) : (string t).comments = [] := by
  rw [string, quoted, comments_branch _ (by decide)]
  split <;> simp [comments_leaf]

@[simp] theorem comments_memberNode (obj prop : Node) (b : Bool) :
    (memberNode obj prop b).comments = obj.comments ++ prop.comments := by
  cases b <;> simp [memberNode, comments_branch]

@[simp] theorem comments_member (obj : Node) (name : Text) :
    (member obj name).comments = obj.comments := by
  simp [member]

@[simp] theorem comments_arguments (args : List Node) :
    (arguments args).comments = args.flatMap comments := by
  simp [arguments, comments_branch]

@[simp] theorem comments_call (callee : Node) (args : List Node) :
    (call callee args).comments = callee.comments ++ args.flatMap comments := by
  simp [call, comments_branch]

@[simp] theorem comments_methodCall (obj : Node) (name : Text) (args : List Node) :
    (methodCall obj name args).comments
      = obj.comments ++ args.flatMap comments := by
  simp [methodCall]

@[simp] theorem comments_newExpression (maker : Node) (args : List Node) :
    (newExpression maker args).comments
      = maker.comments ++ args.flatMap comments := by
  simp [newExpression, comments_branch]

@[simp] theorem comments_assignment (left right : Node) :
    (assignment left right).comments = left.comments ++ right.comments := by
  simp [assignment, assignmentWith, comments_branch]

@[simp] theorem comments_binary (left right : Node) (op : String) :
    (binary left op right).comments = left.comments ++ right.comments := by
  simp only [binary, comments_branch _ (show Symbol.binaryExpression ≠ .comment by decide),
    List.flatMap_cons, List.flatMap_nil, comments_inRole, comments_spaced,
    comments_token, List.nil_append, List.append_nil]
  congr 1
  · split <;> simp
  · split <;> simp

@[simp] theorem comments_unary (op : String) (e : Node) :
    (unary op e).comments = e.comments := by
  unfold unary
  split <;> simp [comments_branch]

@[simp] theorem comments_negatedIf (b : Bool) (e : Node) :
    (negatedIf b e).comments = e.comments := by
  cases b <;> simp [negatedIf]

@[simp] theorem comments_formalParameters (ps : List Node) :
    (formalParameters ps).comments = ps.flatMap comments := by
  simp [formalParameters, comments_branch]

@[simp] theorem comments_spread (e : Node) : (spread e).comments = e.comments := by
  simp [spread, comments_branch]

@[simp] theorem comments_array (es : List Node) :
    (array es).comments = es.flatMap comments := by
  simp [array, comments_branch]

@[simp] theorem comments_object_one (key : Text) (v : Node) :
    (object [(key, v)]).comments = v.comments := by
  simp [object, pair, comments_branch]

@[simp] theorem comments_arrow (ps : List Node) (body : Node) :
    (arrow ps body).comments = ps.flatMap comments ++ body.comments := by
  unfold arrow
  split <;> simp [comments_branch]

end Build

-- ============================================================= in place

namespace Cursor

/-- The comments of the whole before and behind a place do not depend on
what stands there. -/
theorem comments_plug {above : List (Node × Nat)} {n : Node}
    (h : PlacedIn n above) :
    ∃ before after, ∀ r : Node,
      (plug above r).comments = before ++ (r.comments ++ after) := by
  induction above generalizing n with
  | nil => exact ⟨[], [], fun r => by rw [plug, List.nil_append, List.append_nil]⟩
  | cons pi up ih =>
      obtain ⟨q, i⟩ := pi
      obtain ⟨before, after, hup⟩ := ih h.2
      obtain ⟨hi, -⟩ := List.getElem?_eq_some_iff.1 h.1
      refine ⟨before ++ (q.ownComments ++ (q.children.take i).flatMap Node.comments),
        (q.children.drop (i + 1)).flatMap Node.comments ++ after, fun r => ?_⟩
      rw [plug, hup, Node.comments_eq]
      simp only [List.set_eq_take_append_cons_drop, hi, if_true,
        List.flatMap_append, List.flatMap_cons, List.append_assoc]
      rfl

end Cursor

namespace Workspace

variable {w : Workspace} {c p : Cursor}

theorem comments_fitted (parent old new : Node) :
    (fitted parent old new).comments = new.comments := by
  unfold fitted
  rw [Node.comments_placed]
  split <;> simp

/-- A replacement has its comments where the replaced expression had its
own. -/
theorem comments_splice (hw : w.Sound) (hc : c ∈ (Cursor.top w.program).walk)
    (hp : c.parent? = some p) (new : Node) :
    ∃ before after, w.program.comments = before ++ (c.node.comments ++ after)
      ∧ (w.splice p.node c.node new).program.comments
        = before ++ (new.comments ++ after) := by
  have hplaced := (Cursor.mem_walk_top.1 hc).1
  obtain ⟨before, after, hplug⟩ := Cursor.comments_plug hplaced
  refine ⟨before, after, ?_, ?_⟩
  · rw [← rootIn_eq hc, ← Cursor.plug_eq_rootIn hplaced, hplug]
  · rw [(program_splice hw hc hp new).1, hplug, inserted, Node.comments_number,
      comments_fitted]

end Workspace

end Codemod
