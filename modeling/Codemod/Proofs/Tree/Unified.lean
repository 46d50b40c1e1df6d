/-
Trees without carriage returns.

What a file is read as has line feeds only at the ends of its lines, and
what is written is to be read back as it is. A text is unified if it has
no carriage return, and a tree if what its nodes show by themselves is
(`Node.IsUnified`). A parsed tree is unified just when its source is
(`isUnified_of_render`), and what is built of unified parts is unified: a
string literal has no carriage return even if its value has one
(`Build.isUnified_string`).
-/
import Mathlib.Data.List.Basic
import Codemod.Proofs.Tree.Print
import Codemod.Proofs.Effect.Callback

namespace Codemod

/-- The text has no carriage return. -/
def Text.IsUnified (t : Text) : Prop := .scalar '\r' ∉ t

namespace Text.IsUnified

variable {t u : Text}

instance (t : Text) : Decidable t.IsUnified := inferInstanceAs (Decidable (_ ∉ _))

theorem nil : IsUnified [] := List.not_mem_nil

theorem append_iff : IsUnified (t ++ u) ↔ t.IsUnified ∧ u.IsUnified := by
  rw [IsUnified, List.mem_append, not_or]
  rfl

theorem ofChars_iff {cs : List Char} : IsUnified (ofChars cs) ↔ '\r' ∉ cs := by
  simp [IsUnified, ofChars]

theorem of_subset (h : u.IsUnified) (hsub : t ⊆ u) : t.IsUnified :=
  fun hmem => h (hsub hmem)

end Text.IsUnified

namespace Node

variable {n m : Node} {t : Text}

-- ================================================================== trees

/-- What a node shows by itself. -/
def own (n : Node) : Text := n.lead ++ n.text.getD n.tail

/-- No node of the tree shows a carriage return. -/
def IsUnified (n : Node) : Prop := ∀ m ∈ n.walk, m.own.IsUnified

instance (n : Node) : Decidable n.IsUnified :=
  inferInstanceAs (Decidable (∀ m ∈ n.walk, m.own.IsUnified))

theorem isUnified_iff : n.IsUnified
    ↔ n.own.IsUnified ∧ ∀ c ∈ n.children, c.IsUnified := by
  constructor
  · intro h
    exact ⟨h n (self_mem_walk n), fun c hc m hm => h m (mem_walk_of_child hc hm)⟩
  · rintro ⟨hown, hcs⟩ m hm
    rcases mem_walk_iff.1 hm with rfl | ⟨c, hc, hmc⟩
    · exact hown
    · exact hcs c hc m hmc

namespace IsUnified

theorem of_mem_walk (h : n.IsUnified) (hm : m ∈ n.walk) : m.IsUnified :=
  fun _ hk => h _ (mem_walk_trans hm hk)

theorem of_mem_children (h : n.IsUnified) (hm : m ∈ n.children) : m.IsUnified :=
  (isUnified_iff.1 h).2 m hm

theorem lead (h : n.IsUnified) : n.lead.IsUnified :=
  (Text.IsUnified.append_iff.1 (isUnified_iff.1 h).1).1

theorem codeAll {cs : List Node} (h : ∀ c ∈ cs, c.lead.IsUnified ∧ c.code.IsUnified) :
    (Node.codeAll cs).IsUnified := by
  induction cs with
  | nil => exact .nil
  | cons c cs ih =>
      rw [List.forall_mem_cons] at h
      rw [Node.codeAll, Text.IsUnified.append_iff, Text.IsUnified.append_iff]
      exact ⟨h.1.1, h.1.2, ih h.2⟩

theorem code (h : n.IsUnified) : n.code.IsUnified := by
  induction n using Node.ind with
  | h n ih =>
      obtain ⟨hown, hcs⟩ := isUnified_iff.1 h
      obtain ⟨i, k, b, r, l, t, cs, z⟩ := n
      have hshown := (Text.IsUnified.append_iff.1 hown).2
      cases t with
      | some t => exact hshown
      | none =>
          rw [Node.code, Text.IsUnified.append_iff]
          exact ⟨codeAll fun c hc => ⟨(hcs c hc).lead, ih c hc (hcs c hc)⟩, hshown⟩

theorem render (h : n.IsUnified) : n.render.IsUnified :=
  Text.IsUnified.append_iff.2 ⟨h.lead, h.code⟩

end IsUnified

theorem lead_code_of_codeAll {cs : List Node} (h : (codeAll cs).IsUnified) :
    ∀ c ∈ cs, c.lead.IsUnified ∧ c.code.IsUnified := by
  induction cs with
  | nil => exact List.forall_mem_nil _
  | cons c cs ih =>
      rw [codeAll, Text.IsUnified.append_iff, Text.IsUnified.append_iff] at h
      exact List.forall_mem_cons.2 ⟨⟨h.1, h.2.1⟩, ih h.2.2⟩

/-- In a shaped tree all that a node shows is printed. -/
theorem isUnified_of_render (hs : n.Shaped) (h : n.render.IsUnified) :
    n.IsUnified := by
  induction n using Node.ind with
  | h n ih =>
      obtain ⟨hlead, hcode⟩ := Text.IsUnified.append_iff.1 h
      have hworded := hs.formed.worded
      rw [isUnified_iff]
      cases ht : n.text with
      | some t =>
          rw [hworded (by rw [ht]; rfl)]
          refine ⟨Text.IsUnified.append_iff.2 ⟨hlead, ?_⟩, List.forall_mem_nil _⟩
          obtain ⟨i, k, b, r, l, x, cs, z⟩ := n
          obtain rfl : x = some t := ht
          exact hcode
      | none =>
          rw [code_of_text_none ht, Text.IsUnified.append_iff] at hcode
          refine ⟨Text.IsUnified.append_iff.2 ⟨hlead, ?_⟩, fun c hc => ?_⟩
          · rw [ht]
            exact hcode.2
          · obtain ⟨hl, hc'⟩ := lead_code_of_codeAll hcode.1 c hc
            exact ih c hc (hs.of_mem_children hc)
              (Text.IsUnified.append_iff.2 ⟨hl, hc'⟩)

-- ================================================================= changes

theorem own_copy (n : Node) : n.copy.own = n.own := by
  rw [copy_eq]
  rfl

theorem isUnified_copy : n.copy.IsUnified ↔ n.IsUnified := by
  induction n using Node.ind with
  | h n ih =>
      rw [isUnified_iff, isUnified_iff (n := n), own_copy, children_copy,
        List.forall_mem_map]
      exact and_congr_right fun _ => forall₂_congr ih

theorem isUnified_number {k : Nat} : (n.number k).1.IsUnified ↔ n.IsUnified := by
  rw [← isUnified_copy, copy_number, isUnified_copy]

namespace IsUnified

theorem placed (h : n.IsUnified) {r : Option Role} {l : Text} (hl : l.IsUnified) :
    (n.placed r l).IsUnified := by
  obtain ⟨hown, hcs⟩ := isUnified_iff.1 h
  exact isUnified_iff.2
    ⟨Text.IsUnified.append_iff.2 ⟨hl, (Text.IsUnified.append_iff.1 hown).2⟩, hcs⟩

theorem with_children (h : n.IsUnified) {cs : List Node} (hcs : ∀ c ∈ cs, c.IsUnified) :
    ({ n with children := cs } : Node).IsUnified :=
  isUnified_iff.2 ⟨(isUnified_iff.1 h).1, hcs⟩

/-- A tree in which a node has been replaced by what a unified node and its
parent become. -/
theorem substitute {target : Nat} {f : Node → Node → Node} (h : n.IsUnified)
    (hf : ∀ p o : Node, o.IsUnified → (f p o).IsUnified) :
    (n.substitute target f).IsUnified := by
  induction n using Node.ind with
  | h n ih =>
      rw [substitute_eq]
      refine h.with_children ?_
      rw [List.forall_mem_map]
      intro c hc
      rw [substituteChild]
      split
      · exact hf n c (h.of_mem_children hc)
      · exact ih c hc (h.of_mem_children hc)

end IsUnified

end Node

-- ================================================================ building

namespace Node

theorem isUnified_token {text : String} (h : (Text.ofString text).IsUnified) :
    (token text).IsUnified :=
  isUnified_iff.2 ⟨h, List.forall_mem_nil _⟩

theorem isUnified_leaf {s : Symbol} {text : Text} (h : text.IsUnified) :
    (leaf s text).IsUnified :=
  isUnified_iff.2 ⟨h, List.forall_mem_nil _⟩

theorem isUnified_branch {s : Symbol} {cs : List Node} (h : ∀ c ∈ cs, c.IsUnified) :
    (branch s cs).IsUnified :=
  isUnified_iff.2 ⟨Text.IsUnified.nil, h⟩

end Node

namespace Build

open Node

variable {e obj prop left right callee body : Node} {es args params : List Node}
  {name key value : Text} {parent : Symbol} {role : Role} {operator : String}

theorem isUnified_inRole (h : e.IsUnified) : (inRole e role).IsUnified := h.placed .nil

theorem isUnified_spaced (h : e.IsUnified) : (spaced e role).IsUnified :=
  h.placed (by decide)

theorem isUnified_spacedToken {text : String} (h : (Text.ofString text).IsUnified) :
    (spacedToken text).IsUnified :=
  (isUnified_token h).placed (by decide)

theorem isUnified_parenthesized (h : e.IsUnified) : (parenthesized e).IsUnified := by
  refine isUnified_branch ?_
  simp only [List.forall_mem_cons, List.not_mem_nil, false_implies, implies_true,
    and_true]
  exact ⟨isUnified_token (by decide), h.placed .nil, isUnified_token (by decide)⟩

theorem isUnified_operand (h : e.IsUnified) : (operand e parent role).IsUnified := by
  rw [operand]
  split
  · exact isUnified_parenthesized h
  · exact h

theorem isUnified_commaSeparated (h : ∀ e ∈ es, e.IsUnified) :
    ∀ e ∈ commaSeparated es, e.IsUnified := by
  cases es with
  | nil => exact List.forall_mem_nil _
  | cons e es =>
      rw [List.forall_mem_cons] at h
      rw [commaSeparated, List.forall_mem_cons]
      refine ⟨h.1.placed .nil, fun d hd => ?_⟩
      obtain ⟨c, hc, hd⟩ := List.mem_flatMap.1 hd
      simp only [List.mem_cons, List.not_mem_nil, or_false] at hd
      rcases hd with rfl | rfl
      · exact isUnified_token (by decide)
      · exact (h.2 c hc).placed (by decide)

theorem isUnified_enclosed {s : Symbol} {opening closing : String}
    (ho : (Text.ofString opening).IsUnified) (hc : (Text.ofString closing).IsUnified)
    (h : ∀ e ∈ es, e.IsUnified) :
    (Node.branch s (.token opening :: es ++ [.token closing])).IsUnified := by
  refine isUnified_branch ?_
  simp only [List.cons_append, List.forall_mem_cons, List.forall_mem_append,
    List.not_mem_nil, false_implies, implies_true, and_true]
  exact ⟨isUnified_token ho, h, isUnified_token hc⟩

theorem isUnified_hexText : ∀ n < 0x20, (Text.ofChars (Text.hexText 4 n)).IsUnified := by
  decide

/-- The characters that stand for a point have no carriage return. -/
theorem isUnified_escapePoint (p : Point) : (Text.escapePoint p).IsUnified := by
  cases p with
  | surrogate n => simp [Text.escapePoint, Text.IsUnified]
  | scalar c =>
      unfold Text.escapePoint
      simp only
      split
      · decide
      · decide
      · decide
      · decide
      · decide
      · decide
      · decide
      · next hc _ _ _ =>
          split
          · next hlow =>
              exact Text.IsUnified.append_iff.2 ⟨by decide, isUnified_hexText _ hlow⟩
          · simpa [Text.IsUnified] using Ne.symm hc

theorem isUnified_escape (t : Text) : t.escape.IsUnified := by
  intro h
  obtain ⟨p, -, hp⟩ := List.mem_flatMap.1 h
  exact isUnified_escapePoint p hp

/-- A literal in double quotes, whatever its value. -/
theorem isUnified_string (value : Text) : (string value).IsUnified := by
  have hquote : ("\"" == "'") = false := by decide
  unfold string quoted
  simp only [hquote, Bool.false_eq_true, if_false]
  refine isUnified_enclosed (by decide) (by decide) ?_
  split
  · exact List.forall_mem_nil _
  · exact List.forall_mem_singleton.2 (isUnified_leaf (isUnified_escape value))

theorem isUnified_memberNode {isOptional : Bool} (ho : obj.IsUnified)
    (hp : prop.IsUnified) : (memberNode obj prop isOptional).IsUnified := by
  refine isUnified_branch ?_
  simp only [List.forall_mem_cons, List.not_mem_nil, false_implies, implies_true,
    and_true]
  refine ⟨isUnified_inRole (isUnified_operand ho), ?_, isUnified_inRole hp⟩
  split
  · exact isUnified_inRole (isUnified_token (by decide))
  · exact isUnified_token (by decide)

theorem isUnified_member (ho : obj.IsUnified) (hn : name.IsUnified) :
    (member obj name).IsUnified :=
  isUnified_memberNode ho (isUnified_leaf hn)

theorem isUnified_arguments (h : ∀ a ∈ args, a.IsUnified) : (arguments args).IsUnified :=
  isUnified_enclosed (by decide) (by decide) (isUnified_commaSeparated h)

theorem isUnified_call (hc : callee.IsUnified) (ha : ∀ a ∈ args, a.IsUnified) :
    (call callee args).IsUnified := by
  refine isUnified_branch ?_
  simp only [List.forall_mem_cons, List.not_mem_nil, false_implies, implies_true,
    and_true]
  exact ⟨isUnified_inRole (isUnified_operand hc), isUnified_inRole (isUnified_arguments ha)⟩

theorem isUnified_methodCall (ho : obj.IsUnified) (hn : name.IsUnified)
    (ha : ∀ a ∈ args, a.IsUnified) : (methodCall obj name args).IsUnified :=
  isUnified_call (isUnified_member ho hn) ha

theorem isUnified_newExpression (hc : callee.IsUnified) (ha : ∀ a ∈ args, a.IsUnified) :
    (newExpression callee args).IsUnified := by
  refine isUnified_branch ?_
  simp only [List.forall_mem_cons, List.not_mem_nil, false_implies, implies_true,
    and_true]
  exact ⟨isUnified_token (by decide), isUnified_spaced (isUnified_operand hc),
    isUnified_inRole (isUnified_arguments ha)⟩

theorem isUnified_assignment (hl : left.IsUnified) (hr : right.IsUnified) :
    (assignment left right).IsUnified := by
  rw [assignment, assignmentWith, if_pos (beq_self_eq_true _)]
  refine isUnified_branch ?_
  simp only [List.forall_mem_cons, List.not_mem_nil, false_implies, implies_true,
    and_true]
  exact ⟨isUnified_inRole hl, isUnified_spacedToken (by decide), isUnified_spaced hr⟩

theorem isUnified_binary (ho : (Text.ofString operator).IsUnified) (hl : left.IsUnified)
    (hr : right.IsUnified) : (binary left operator right).IsUnified := by
  refine isUnified_branch ?_
  simp only [List.forall_mem_cons, List.not_mem_nil, false_implies, implies_true,
    and_true]
  refine ⟨isUnified_inRole ?_, isUnified_spaced (isUnified_token ho), isUnified_spaced ?_⟩
  · split
    · exact isUnified_parenthesized hl
    · exact hl
  · split
    · exact isUnified_parenthesized hr
    · exact hr

theorem isUnified_negatedIf {negated : Bool} (h : e.IsUnified) :
    (negatedIf negated e).IsUnified := by
  cases negated with
  | false => exact h
  | true =>
      refine isUnified_branch ?_
      simp only [List.forall_mem_cons, List.not_mem_nil, false_implies, implies_true,
    and_true]
      refine ⟨isUnified_inRole (isUnified_token (by decide)), ?_⟩
      split
      · exact isUnified_spaced (isUnified_operand h)
      · exact isUnified_inRole (isUnified_operand h)

theorem isUnified_formalParameters (h : ∀ p ∈ params, p.IsUnified) :
    (formalParameters params).IsUnified :=
  isUnified_enclosed (by decide) (by decide) (isUnified_commaSeparated h)

theorem isUnified_spread (h : e.IsUnified) : (spread e).IsUnified := by
  refine isUnified_branch ?_
  simp only [List.forall_mem_cons, List.not_mem_nil, false_implies, implies_true,
    and_true]
  exact ⟨isUnified_token (by decide), (isUnified_operand h).placed .nil⟩

theorem isUnified_array (h : ∀ e ∈ es, e.IsUnified) : (array es).IsUnified :=
  isUnified_enclosed (by decide) (by decide) (isUnified_commaSeparated h)

theorem isUnified_arrow (hp : ∀ p ∈ params, p.IsUnified) (hb : body.IsUnified) :
    (arrow params body).IsUnified := by
  refine isUnified_branch ?_
  simp only [List.forall_mem_cons, List.not_mem_nil, false_implies, implies_true,
    and_true]
  refine ⟨isUnified_inRole (isUnified_formalParameters hp),
    isUnified_spacedToken (by decide), isUnified_spaced ?_⟩
  split
  · exact isUnified_parenthesized hb
  · exact hb

end Build

theorem Workspace.isUnified_fitted {parent old new : Node} (ho : old.lead.IsUnified)
    (h : new.IsUnified) : (Workspace.fitted parent old new).IsUnified := by
  unfold Workspace.fitted
  split
  · exact (Build.isUnified_parenthesized h).placed ho
  · exact h.placed ho

end Codemod
