/-
Putting a statement into a list.

`Insertion.tree` puts a statement into a list of statements, which is
known by its identity; all else stays. A place of the old tree has its
place in the new one (`Insertion.place`), and the statement has its own
(`Insertion.slot`). There are no others (`Insertion.mem_walk_place`), so
that what is asked of the new tree can be asked of the old tree and of
the statement.
-/
import Mathlib.Data.List.InsertIdx
import Codemod.Proofs.Tree.Shape

namespace Codemod

/-- The kinds of node that are lists of statements. -/
def listSymbols : List Symbol :=
  [.program, .statementBlock, .switchCase, .switchDefault]

/-- A statement, and the place in a list where it is to be put. -/
structure Insertion where
  /-- The identity of the list. -/
  list : Nat
  /-- The index that the statement gets in the list. -/
  index : Nat
  /-- The statement. -/
  statement : Node

namespace Insertion

mutual

/-- The tree with the statement in it. -/
def tree (e : Insertion) : Node → Node
  | ⟨i, k, b, r, l, t, cs, z⟩ =>
    ⟨i, k, b, r, l, t,
      if i == some e.list then (e.trees cs).insertIdx e.index e.statement
      else e.trees cs, z⟩

/-- Neighbouring trees with the statement in them. -/
def trees (e : Insertion) : List Node → List Node
  | [] => []
  | c :: cs => e.tree c :: e.trees cs

end

/-- The index of a child when the statement stands among the children. -/
def slide (e : Insertion) (p : Node) (i : Nat) : Nat :=
  if p.id == some e.list && e.index ≤ i then i + 1 else i

/-- The place that a place of the old tree has in the new one. -/
def place (e : Insertion) (c : Cursor) : Cursor :=
  ⟨e.tree c.node, c.above.map fun (p, i) => (e.tree p, e.slide p i)⟩

/-- The place of the statement in the list. -/
def slot (e : Insertion) (c : Cursor) : Cursor :=
  ⟨e.statement, (e.tree c.node, e.index) :: (e.place c).above⟩

variable (e : Insertion) {c d x : Cursor} {n m : Node}

-- ================================================================ nodes

@[simp] theorem id_tree : (e.tree n).id = n.id := by
  obtain ⟨i, k, b, r, l, t, cs, z⟩ := n
  rw [tree]

@[simp] theorem kind_tree : (e.tree n).kind = n.kind := by
  obtain ⟨i, k, b, r, l, t, cs, z⟩ := n
  rw [tree]

@[simp] theorem role_tree : (e.tree n).role = n.role := by
  obtain ⟨i, k, b, r, l, t, cs, z⟩ := n
  rw [tree]

@[simp] theorem named_tree : (e.tree n).named = n.named := by
  obtain ⟨i, k, b, r, l, t, cs, z⟩ := n
  rw [tree]

theorem trees_eq (cs : List Node) : e.trees cs = cs.map e.tree := by
  induction cs with
  | nil => rfl
  | cons c cs ih => rw [trees, ih, List.map_cons]

theorem children_tree :
    (e.tree n).children =
      if n.id == some e.list then (n.children.map e.tree).insertIdx e.index e.statement
      else n.children.map e.tree := by
  obtain ⟨i, k, b, r, l, t, cs, z⟩ := n
  rw [tree, trees_eq]

@[simp] theorem is_tree {s : Symbol} : (e.tree n).is s = n.is s := by
  rw [Node.is, Node.is, kind_tree]

@[simp] theorem isAny_tree {ss : List Symbol} : (e.tree n).isAny ss = n.isAny ss := by
  unfold Node.isAny
  exact congrArg ss.any (funext fun _ => e.is_tree)

@[simp] theorem isOperand_tree : (e.tree n).isOperand = n.isOperand := by
  rw [Node.isOperand, Node.isOperand, named_tree, is_tree]

/-- A tree without the list stays as it is. -/
theorem tree_of_not_mem (h : ∀ m ∈ n.walk, m.id ≠ some e.list) : e.tree n = n := by
  induction n using Node.ind with
  | h n ih =>
      have hmap : n.children.map e.tree = n.children := by
        refine (List.map_congr_left fun c hc => ?_).trans (List.map_id _)
        exact ih c hc fun m hm => h m (Node.mem_walk_of_child hc hm)
      have hchildren := e.children_tree (n := n)
      have hid : (n.id == some e.list) = false := by
        simpa using h n (Node.self_mem_walk n)
      rw [hid, if_neg Bool.false_ne_true, hmap] at hchildren
      obtain ⟨i, k, b, r, l, t, cs, z⟩ := n
      rw [tree] at hchildren ⊢
      exact congrArg (Node.mk i k b r l t · z) hchildren

/-- The tree has a list of that identity at most, with room for the
statement. In a list other than the whole tree a token comes first. -/
structure Fits (n : Node) : Prop where
  shaped : n.Shaped
  room : ∀ m ∈ n.walk, m.id = some e.list →
    m.isAny listSymbols = true ∧ e.index ≤ m.children.length
  behind : ∀ m ∈ n.walk, ∀ k ∈ m.children, k.id = some e.list → 0 < e.index

-- =============================================================== places

@[simp] theorem node_place : (e.place c).node = e.tree c.node := rfl

@[simp] theorem is_place {s : Symbol} : (e.place c).is s = c.is s := e.is_tree

@[simp] theorem isAny_place {ss : List Symbol} : (e.place c).isAny ss = c.isAny ss :=
  e.isAny_tree

@[simp] theorem same_place : (e.place c).same (e.place d) = c.same d := by
  rw [Cursor.same, Cursor.same, node_place, node_place, id_tree, id_tree]

theorem place_top : e.place (.top n) = .top (e.tree n) := rfl

theorem ancestors_place : (e.place c).ancestors = c.ancestors.map e.place := by
  obtain ⟨n, above⟩ := c
  induction above generalizing n with
  | nil => rfl
  | cons pi up ih =>
      obtain ⟨p, i⟩ := pi
      exact congrArg (e.place ⟨p, up⟩ :: ·) (ih p)

theorem parent?_place : (e.place c).parent? = c.parent?.map e.place := by
  obtain ⟨n, above⟩ := c
  cases above with
  | nil => rfl
  | cons pi up => rfl

theorem root_place : (e.place c).root = e.place c.root := by
  obtain ⟨n, above⟩ := c
  induction above generalizing n with
  | nil => rfl
  | cons pi up ih => exact ih pi.1

/-- The children of a node that is not the list. -/
theorem children_place (h : c.node.id ≠ some e.list) :
    (e.place c).children = c.children.map e.place := by
  have hslide : ∀ i, e.slide c.node i = i := fun i => by simp [slide, h]
  have hfrom : ∀ (cs : List Node) (i : Nat),
      Cursor.childrenFrom (e.tree c.node) (e.place c).above i (cs.map e.tree)
        = (Cursor.childrenFrom c.node c.above i cs).map e.place := by
    intro cs
    induction cs with
    | nil => exact fun i => rfl
    | cons m cs ih =>
        intro i
        rw [List.map_cons, Cursor.childrenFrom, Cursor.childrenFrom, List.map_cons, ih]
        refine congrArg (· :: _) ?_
        show _ = (⟨e.tree m, (e.tree c.node, e.slide c.node i) :: _⟩ : Cursor)
        rw [hslide]
        rfl
  have hchildren : (e.tree c.node).children = c.node.children.map e.tree := by
    rw [children_tree, beq_eq_false_iff_ne.2 h, if_neg Bool.false_ne_true]
  rw [Cursor.children, node_place, hchildren]
  exact hfrom c.node.children 0

/-- The children of the list are those it had, and the statement. -/
theorem mem_children_place_list (h : c.node.id = some e.list)
    (hlen : e.index ≤ c.node.children.length) :
    x ∈ (e.place c).children ↔ (∃ d ∈ c.children, x = e.place d) ∨ x = e.slot c := by
  have hchildren (i : Nat) : (e.tree c.node).children[i]? =
      if i < e.index then c.node.children[i]?.map e.tree
      else if i = e.index then some e.statement
      else c.node.children[i - 1]?.map e.tree := by
    rw [children_tree, h, beq_self_eq_true, if_pos rfl, List.getElem?_insertIdx]
    simp only [List.length_map, List.getElem?_map]
    grind
  have hslide (i : Nat) : e.slide c.node i = if e.index ≤ i then i + 1 else i := by
    simp [slide, h]
  obtain ⟨m, above⟩ := x
  rw [Cursor.mem_children]
  simp only [node_place, hchildren]
  constructor
  · rintro ⟨i, hi, ha⟩
    obtain rfl : above = (e.tree c.node, i) :: (e.place c).above := ha
    split at hi
    · next hlt =>
        obtain ⟨m', hm', rfl⟩ := Option.map_eq_some_iff.1 hi
        refine Or.inl ⟨⟨m', (c.node, i) :: c.above⟩,
          Cursor.mem_children.2 ⟨i, hm', rfl⟩, ?_⟩
        simp [place, hslide, Nat.not_le.2 hlt]
    · split at hi
      · next heq =>
          subst heq
          obtain rfl := Option.some.inj hi
          exact Or.inr rfl
      · next hle hne =>
          obtain ⟨m', hm', rfl⟩ := Option.map_eq_some_iff.1 hi
          refine Or.inl ⟨⟨m', (c.node, i - 1) :: c.above⟩,
            Cursor.mem_children.2 ⟨i - 1, hm', rfl⟩, ?_⟩
          have hback : e.slide c.node (i - 1) = i := by
            rw [hslide, if_pos (by omega)]
            omega
          simp [place, hback]
  · rintro (⟨d, hd, hx⟩ | hx)
    · obtain ⟨i, hi, ha⟩ := Cursor.mem_children.1 hd
      obtain ⟨rfl, rfl⟩ := Cursor.mk.inj hx
      refine ⟨e.slide c.node i, ?_, ?_⟩
      · rw [hslide]
        split
        · rw [if_neg (by omega), if_neg (by omega), Nat.add_sub_cancel, hi]
          rfl
        · rw [if_pos (by omega), hi]
          rfl
      · simp [ha, place]
    · obtain ⟨rfl, rfl⟩ := Cursor.mk.inj hx
      refine ⟨e.index, ?_, rfl⟩
      rw [if_neg (Nat.lt_irrefl _), if_pos rfl]

variable {e}

theorem mem_children_place (h : e.Fits c.node) :
    x ∈ (e.place c).children ↔ (∃ d ∈ c.children, x = e.place d)
      ∨ (c.node.id = some e.list ∧ x = e.slot c) := by
  by_cases hid : c.node.id = some e.list
  · rw [mem_children_place_list e hid (h.room c.node (Node.self_mem_walk _) hid).2]
    simp [hid]
  · rw [children_place e hid]
    simp [hid, eq_comm]

theorem Fits.of_mem_walk (h : e.Fits n) (hm : m ∈ n.walk) : e.Fits m :=
  ⟨h.shaped.of_mem_walk hm, fun k hk => h.room k (Node.mem_walk_trans hm hk),
    fun k hk => h.behind k (Node.mem_walk_trans hm hk)⟩

theorem Fits.of_mem_children (h : e.Fits c.node) (hd : d ∈ c.children) :
    e.Fits d.node :=
  h.of_mem_walk (Cursor.node_mem_walk
    (Cursor.mem_walk_of_mem_children (Cursor.self_mem_walk c) hd))

/-- A node of another kind is not the list. -/
theorem Fits.id_ne (h : e.Fits n) {s : Symbol} (hk : n.kind = .symbol s)
    (hs : s ∉ listSymbols) : n.id ≠ some e.list := by
  intro hid
  obtain ⟨t, ht, hkt⟩ := Node.isAny_iff.1 (h.room n (Node.self_mem_walk n) hid).1
  obtain rfl : s = t := by simpa [hk] using hkt
  exact hs ht

/-- A child without parts is not the list. -/
theorem Fits.id_ne_of_leaf (h : e.Fits n) (hm : m ∈ n.children)
    (hleaf : m.children = []) : m.id ≠ some e.list := by
  intro hid
  have hpos := h.behind n (Node.self_mem_walk n) m hm hid
  have hroom := (h.room m (Node.mem_walk_of_child hm (Node.self_mem_walk m)) hid).2
  rw [hleaf, List.length_nil] at hroom
  omega

/-- A node without parts stays as it is, if it is not the list. -/
theorem tree_of_leaf (hleaf : n.children = []) (hid : n.id ≠ some e.list) :
    e.tree n = n := by
  refine tree_of_not_mem e fun m hm => ?_
  rcases Node.mem_walk_iff.1 hm with rfl | ⟨c, hc, -⟩
  · exact hid
  · rw [hleaf] at hc
    cases hc

/-- The places of the new tree are those of the old one, and those of the
statement in the list. -/
theorem mem_walk_place (h : e.Fits c.node) :
    x ∈ (e.place c).walk ↔ (∃ y ∈ c.walk, x = e.place y)
      ∨ ∃ t ∈ c.walk, t.node.id = some e.list ∧ x ∈ (e.slot t).walk := by
  induction c using Cursor.ind with
  | h c ih =>
      have hchild {d : Cursor} (hd : d ∈ c.children) := ih d hd (h.of_mem_children hd)
      rw [Cursor.mem_walk_iff]
      constructor
      · rintro (rfl | ⟨d', hd', hx⟩)
        · exact Or.inl ⟨c, Cursor.self_mem_walk c, rfl⟩
        · rcases (mem_children_place h).1 hd' with ⟨d, hd, rfl⟩ | ⟨hid, rfl⟩
          · rcases (hchild hd).1 hx with ⟨y, hy, rfl⟩ | ⟨t, ht, hid, hx⟩
            · exact Or.inl ⟨y, Cursor.mem_walk_iff.2 (Or.inr ⟨d, hd, hy⟩), rfl⟩
            · exact Or.inr ⟨t, Cursor.mem_walk_iff.2 (Or.inr ⟨d, hd, ht⟩), hid, hx⟩
          · exact Or.inr ⟨c, Cursor.self_mem_walk c, hid, hx⟩
      · rintro (⟨y, hy, rfl⟩ | ⟨t, ht, hid, hx⟩)
        · rcases Cursor.mem_walk_iff.1 hy with rfl | ⟨d, hd, hy⟩
          · exact Or.inl rfl
          · exact Or.inr ⟨e.place d, (mem_children_place h).2 (Or.inl ⟨d, hd, rfl⟩),
              (hchild hd).2 (Or.inl ⟨y, hy, rfl⟩)⟩
        · rcases Cursor.mem_walk_iff.1 ht with rfl | ⟨d, hd, ht⟩
          · exact Or.inr ⟨e.slot t, (mem_children_place h).2 (Or.inr ⟨hid, rfl⟩), hx⟩
          · exact Or.inr ⟨e.place d, (mem_children_place h).2 (Or.inl ⟨d, hd, rfl⟩),
              (hchild hd).2 (Or.inr ⟨t, ht, hid, hx⟩)⟩

end Insertion

end Codemod
