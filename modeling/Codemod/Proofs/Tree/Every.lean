/-
Tests that all nodes of a tree pass.

A test is lenient if it takes no notice of where a node is placed, and is
passed by any node without an identity that is no assignment and opens no
scope (`Node.Lenient`). What the rules build passes such a test throughout
if the operands do (`Node.Every`).
-/
import Codemod.Proofs.Rule.Measure

namespace Codemod

namespace Node

/-- Tests may tell the node from others that have been built: it assigns
something, or opens a scope around something. -/
def isNotable (n : Node) : Bool := n.holdsScope || n.is .assignmentExpression

/-- The place makes no difference to the test, and most nodes that have been
built pass it. -/
structure Lenient (Q : Node → Prop) : Prop where
  placed : ∀ (n : Node) (r : Option Role) (l : Text), Q n → Q (n.placed r l)
  built : ∀ n : Node, n.id = none → n.children = [] ∨ n.isNotable = false → Q n

variable {Q : Node → Prop} {n : Node}

theorem Every.of_cursor {c d : Cursor} (h : c.node.Every Q) (hd : d ∈ c.walk) :
    d.node.Every Q :=
  h.of_mem_walk (Cursor.node_mem_walk hd)

/-- The kinds of node that can open a scope. -/
def scopeSymbols : List Symbol :=
  .program :: .statementBlock :: functionSymbols ++ blockScopeSymbols

theorem isScope_false_of_kind {s : Symbol} (hk : n.is s = true) (hs : s ∉ scopeSymbols) :
    n.head.isScope = false := by
  simp only [scopeSymbols, List.cons_append, List.mem_cons, List.mem_append,
    not_or] at hs
  have hk : n.head.is s = true := hk
  rw [Head.isScope, Head.isWide, Head.isFunction, Head.is_false hk hs.1,
    Head.is_false hk hs.2.1, Head.isAny_false hk hs.2.2.1, Head.isAny_false hk hs.2.2.2]
  rfl

theorem isNotable_false_of_kind {s : Symbol} (hk : n.is s = true)
    (hs : s ∉ .assignmentExpression :: scopeSymbols) : n.isNotable = false := by
  rw [List.mem_cons, not_or] at hs
  rw [isNotable, holdsScope, isScope_false_of_kind hk hs.2,
    is_false_of_kind (is_iff.1 hk) hs.1]
  rfl

namespace Lenient

variable (h : Lenient Q) {e o a b : Node} {t : Text} {cs args : List Node} {s : Symbol}
  {r : Role} {op : String}
include h

theorem every_placed {r : Option Role} {l : Text} (he : e.Every Q) :
    (e.placed r l).Every Q := by
  rw [every_iff] at he ⊢
  exact ⟨h.placed e r l he.1, he.2⟩

theorem every_branch (hs : s ∉ .assignmentExpression :: scopeSymbols)
    (hcs : ∀ c ∈ cs, c.Every Q) : (branch s cs).Every Q := by
  rw [every_iff]
  refine ⟨h.built _ rfl (Or.inr (isNotable_false_of_kind (s := s) ?_ hs)), hcs⟩
  simp [branch, is]

theorem every_leaf : (leaf s t).Every Q := by
  rw [every_iff]
  exact ⟨h.built _ rfl (Or.inl rfl), List.forall_mem_nil _⟩

theorem every_token : (token op).Every Q := by
  rw [every_iff]
  exact ⟨h.built _ rfl (Or.inl rfl), List.forall_mem_nil _⟩

theorem every_parenthesized (he : e.Every Q) : (Build.parenthesized e).Every Q := by
  refine h.every_branch (by decide) ?_
  simp only [List.forall_mem_cons]
  exact ⟨h.every_token, h.every_placed he, h.every_token, List.forall_mem_nil _⟩

theorem every_operand (he : e.Every Q) : (Build.operand e s r).Every Q := by
  unfold Build.operand
  split
  · exact h.every_parenthesized he
  · exact he

theorem every_commaSeparated (hcs : ∀ c ∈ cs, c.Every Q) :
    ∀ c ∈ Build.commaSeparated cs, c.Every Q := by
  cases cs with
  | nil => exact List.forall_mem_nil _
  | cons e es =>
      rw [List.forall_mem_cons] at hcs
      simp only [Build.commaSeparated, List.forall_mem_cons, List.forall_mem_flatMap]
      exact ⟨h.every_placed hcs.1, fun d hd =>
        ⟨h.every_token, h.every_placed (hcs.2 d hd), List.forall_mem_nil _⟩⟩

theorem every_identifier : (Build.identifier t).Every Q := h.every_leaf

theorem every_string : (Build.string t).Every Q := by
  unfold Build.string Build.quoted
  split
  all_goals
    refine h.every_branch (by decide) ?_
    simp only [List.cons_append, List.forall_mem_cons, List.forall_mem_append]
    refine ⟨h.every_token, ?_, h.every_token, List.forall_mem_nil _⟩
    split
    · exact List.forall_mem_nil _
    · exact List.forall_mem_singleton.2 (h.every_leaf)

theorem every_memberNode {isOptional : Bool} (ho : o.Every Q) (ha : a.Every Q) :
    (Build.memberNode o a isOptional).Every Q := by
  refine h.every_branch (by decide) ?_
  simp only [List.forall_mem_cons]
  refine ⟨h.every_placed (h.every_operand ho), ?_, h.every_placed ha,
    List.forall_mem_nil _⟩
  cases isOptional with
  | true => exact h.every_placed h.every_token
  | false => exact h.every_token

theorem every_member (ho : o.Every Q) : (Build.member o t).Every Q :=
  h.every_memberNode ho (h.every_leaf)

theorem every_path {ts : List Text} (ho : o.Every Q) : (Build.path o ts).Every Q := by
  induction ts generalizing o with
  | nil => exact ho
  | cons t ts ih => exact ih (h.every_member ho)

theorem every_bracketed {l r : String} (hs : s ∉ .assignmentExpression :: scopeSymbols)
    (hcs : ∀ c ∈ cs, c.Every Q) :
    (branch s (token l :: Build.commaSeparated cs ++ [token r])).Every Q := by
  refine h.every_branch hs ?_
  simp only [List.cons_append, List.forall_mem_cons, List.forall_mem_append]
  exact ⟨h.every_token, h.every_commaSeparated hcs, h.every_token,
    List.forall_mem_nil _⟩

theorem every_arguments (hargs : ∀ a ∈ args, a.Every Q) :
    (Build.arguments args).Every Q :=
  h.every_bracketed (by decide) hargs

theorem every_call (he : e.Every Q) (hargs : ∀ a ∈ args, a.Every Q) :
    (Build.call e args).Every Q := by
  refine h.every_branch (by decide) ?_
  simp only [List.forall_mem_cons]
  exact ⟨h.every_placed (h.every_operand he), h.every_placed (h.every_arguments hargs),
    List.forall_mem_nil _⟩

theorem every_methodCall (ho : o.Every Q) (hargs : ∀ a ∈ args, a.Every Q) :
    (Build.methodCall o t args).Every Q :=
  h.every_call (h.every_member ho) hargs

theorem every_newExpression (he : e.Every Q) (hargs : ∀ a ∈ args, a.Every Q) :
    (Build.newExpression e args).Every Q := by
  refine h.every_branch (by decide) ?_
  simp only [List.forall_mem_cons]
  exact ⟨h.every_token, h.every_placed (h.every_operand he),
    h.every_placed (h.every_arguments hargs), List.forall_mem_nil _⟩

theorem every_binary (ha : a.Every Q) (hb : b.Every Q) :
    (Build.binary a op b).Every Q := by
  refine h.every_branch (by decide) ?_
  simp only [List.forall_mem_cons]
  refine ⟨h.every_placed ?_, h.every_placed h.every_token, h.every_placed ?_,
    List.forall_mem_nil _⟩
  · split
    · exact h.every_parenthesized ha
    · exact ha
  · split
    · exact h.every_parenthesized hb
    · exact hb

theorem every_unary (ha : a.Every Q) : (Build.unary op a).Every Q := by
  refine h.every_branch (by decide) ?_
  simp only [List.forall_mem_cons]
  refine ⟨h.every_placed h.every_token, ?_, List.forall_mem_nil _⟩
  split
  · exact h.every_placed (h.every_operand ha)
  · exact h.every_placed (h.every_operand ha)

theorem every_negatedIf {negated : Bool} (he : e.Every Q) :
    (Build.negatedIf negated e).Every Q := by
  unfold Build.negatedIf
  split
  · exact h.every_unary he
  · exact he

theorem every_spread (he : e.Every Q) : (Build.spread e).Every Q := by
  refine h.every_branch (by decide) ?_
  simp only [List.forall_mem_cons]
  exact ⟨h.every_token, h.every_placed (h.every_operand he), List.forall_mem_nil _⟩

theorem every_object {k : Text} (he : e.Every Q) : (Build.object [(k, e)]).Every Q := by
  have hpair : (Build.pair k e).Every Q := by
    refine h.every_placed (h.every_branch (by decide) ?_)
    simp only [List.forall_mem_cons]
    exact ⟨h.every_placed h.every_leaf, h.every_token, h.every_placed he,
      List.forall_mem_nil _⟩
  refine h.every_branch (by decide) ?_
  simp only [List.flatMap_nil, List.cons_append, List.nil_append, List.forall_mem_cons]
  exact ⟨h.every_token, hpair, h.every_placed h.every_token, List.forall_mem_nil _⟩

theorem every_boolean {value : Bool} : (Build.boolean value).Every Q := by
  unfold Build.boolean
  split
  · exact h.every_leaf
  · exact h.every_leaf

/-- An assignment that has been built may be told from other nodes. -/
theorem every_assignment (hQ : Q (Build.assignment a b)) (ha : a.Every Q) (hb : b.Every Q) :
    (Build.assignment a b).Every Q := by
  rw [every_iff]
  refine ⟨hQ, ?_⟩
  show ∀ c ∈ [Build.inRole a .left, Build.spacedToken "=", Build.spaced b .right], c.Every Q
  simp only [List.forall_mem_cons]
  exact ⟨h.every_placed ha, h.every_placed h.every_token, h.every_placed hb,
    List.forall_mem_nil _⟩

/-- So may a function, which opens a scope. -/
theorem every_arrow {body : Node} (hQ : Q (Build.arrow cs body))
    (hcs : ∀ c ∈ cs, c.Every Q) (hbody : body.Every Q) :
    (Build.arrow cs body).Every Q := by
  rw [every_iff]
  refine ⟨hQ, ?_⟩
  simp only [Build.arrow, branch, List.forall_mem_cons]
  refine ⟨h.every_placed (h.every_bracketed (by decide) hcs),
    h.every_placed h.every_token, h.every_placed ?_, List.forall_mem_nil _⟩
  split
  · exact h.every_parenthesized hbody
  · exact hbody

theorem every_fitted {parent old : Node} (he : e.Every Q) :
    (Workspace.fitted parent old e).Every Q := by
  unfold Workspace.fitted
  refine h.every_placed ?_
  split
  · exact h.every_parenthesized he
  · exact he

end Lenient

end Node

end Codemod
