/-
Places in a tree.

`Cursor.walk` lists the places of a subtree by a recursion of its own;
everything below reads it as the closure of one step, from a place to
its children (`walk_eq`, `mem_children`). A cursor is `Placed` when the
ancestors it carries really lead to its node, and the places of a whole
tree are exactly the placed cursors whose topmost ancestor is that tree
(`mem_walk_top`).

Cursors are compared by identity in the analysis. In a tree whose nodes
are all identified, each by a number of its own, that is equality of
places (`eq_of_same`); a parsed program is such a tree
(`parse_identified`).
-/
import Mathlib.Data.List.Nodup
import Codemod.Parse.Source
import Codemod.Tree.Cursor

namespace Codemod

namespace Node

-- ================================================================ kinds

theorem is_iff {n : Node} {s : Symbol} : n.is s = true ↔ n.kind = .symbol s := by
  simp [Node.is]

theorem isAny_iff {n : Node} {ss : List Symbol} :
    n.isAny ss = true ↔ ∃ s ∈ ss, n.kind = .symbol s := by
  simp [Node.isAny, Node.is]

theorem is_false_of_kind {n : Node} {s t : Symbol} (h : n.kind = .symbol s)
    (hst : s ≠ t) : n.is t = false := by
  simp [Node.is, h, hst]

theorem isAny_false_of_kind {n : Node} {s : Symbol} {ss : List Symbol} (hk : n.is s = true)
    (hs : s ∉ ss) : n.isAny ss = false := by
  rw [Bool.eq_false_iff]
  intro hany
  obtain ⟨t, ht, hkind⟩ := isAny_iff.1 hany
  exact hs (Kind.symbol.inj (hkind.symm.trans (is_iff.1 hk)) ▸ ht)

/-- A node of one kind is of none of the others. -/
theorem not_isAny_of_is {n : Node} {s : Symbol} {ss : List Symbol} (hk : n.is s = true)
    (hs : s ∉ ss) : ¬ n.isAny ss = true :=
  Bool.eq_false_iff.1 (isAny_false_of_kind hk hs)

-- ======================================================== the recursion

mutual

/-- A property of all nodes holds once every node inherits it from its
children. -/
theorem ind {P : Node → Prop}
    (h : ∀ n : Node, (∀ c ∈ n.children, P c) → P n) : ∀ n : Node, P n
  | ⟨_, _, _, _, _, _, cs, _⟩ => h _ (indAll h cs)

theorem indAll {P : Node → Prop}
    (h : ∀ n : Node, (∀ c ∈ n.children, P c) → P n) :
    ∀ (cs : List Node), ∀ c ∈ cs, P c
  | [], _, hc => absurd hc List.not_mem_nil
  | d :: ds, c, hc => by
      cases hc with
      | head => exact ind h d
      | tail _ hc => exact indAll h ds c hc

end

theorem walkAll_eq (cs : List Node) : walkAll cs = cs.flatMap walk := by
  induction cs with
  | nil => rfl
  | cons c cs ih => rw [walkAll, ih, List.flatMap_cons]

theorem walk_eq (n : Node) : n.walk = n :: n.children.flatMap walk := by
  obtain ⟨i, k, b, r, l, t, cs, z⟩ := n
  rw [walk, walkAll_eq]

theorem self_mem_walk (n : Node) : n ∈ n.walk := by
  rw [walk_eq]
  exact List.mem_cons_self

theorem mem_walk_of_child {n c m : Node} (hc : c ∈ n.children)
    (hm : m ∈ c.walk) : m ∈ n.walk := by
  rw [walk_eq]
  exact List.mem_cons_of_mem _ (List.mem_flatMap.2 ⟨c, hc, hm⟩)

theorem mem_walk_iff {n m : Node} :
    m ∈ n.walk ↔ m = n ∨ ∃ c ∈ n.children, m ∈ c.walk := by
  rw [walk_eq, List.mem_cons, List.mem_flatMap]

theorem size_lt_of_mem_children {n d : Node} (h : d ∈ n.children) :
    d.size < n.size := by
  obtain ⟨i, k, b, r, l, t, cs, z⟩ := n
  rw [Node.size]
  simp only at h
  induction cs with
  | nil => cases h
  | cons c cs ih =>
      rw [Node.sizeAll]
      rcases List.mem_cons.1 h with rfl | h
      · omega
      · have := ih h
        omega

theorem size_le_of_mem_walk {n m : Node} (h : m ∈ n.walk) :
    m.size ≤ n.size := by
  induction n using Node.ind with
  | h n ih =>
      rcases mem_walk_iff.1 h with rfl | ⟨c, hc, hm⟩
      · exact Nat.le_refl _
      · have := ih c hc hm
        have := size_lt_of_mem_children hc
        omega

/-- What lies below a node of a subtree lies in the subtree. -/
theorem mem_walk_trans {a b c : Node} (hb : b ∈ a.walk) (hc : c ∈ b.walk) :
    c ∈ a.walk := by
  induction a using Node.ind with
  | h n ih =>
      rcases mem_walk_iff.1 hb with rfl | ⟨d, hd, hb'⟩
      · exact hc
      · exact mem_walk_of_child hd (ih d hd hb')

/-- All nodes of the tree pass the test. -/
def Every (Q : Node → Prop) (n : Node) : Prop := ∀ m ∈ n.walk, Q m

theorem every_iff {Q : Node → Prop} {n : Node} :
    n.Every Q ↔ Q n ∧ ∀ c ∈ n.children, c.Every Q := by
  constructor
  · intro h
    exact ⟨h n (self_mem_walk n), fun c hc m hm => h m (mem_walk_of_child hc hm)⟩
  · rintro ⟨hn, hcs⟩ m hm
    rcases mem_walk_iff.1 hm with rfl | ⟨c, hc, hm⟩
    · exact hn
    · exact hcs c hc m hm

theorem Every.of_mem_walk {Q : Node → Prop} {n m : Node} (h : n.Every Q)
    (hm : m ∈ n.walk) : m.Every Q :=
  fun _ hk => h _ (mem_walk_trans hm hk)

end Node

namespace Cursor

-- ============================================================= one step

theorem mem_childrenFrom {parent : Node} {above : List (Node × Nat)}
    {cs : List Node} {d : Cursor} :
    ∀ {i : Nat}, d ∈ childrenFrom parent above i cs ↔
      ∃ j, cs[j]? = some d.node ∧ d.above = (parent, i + j) :: above := by
  induction cs with
  | nil => simp [childrenFrom]
  | cons c cs ih =>
      intro i
      rw [childrenFrom, List.mem_cons, ih]
      constructor
      · rintro (rfl | ⟨j, hj, ha⟩)
        · exact ⟨0, rfl, rfl⟩
        · refine ⟨j + 1, by simpa using hj, ?_⟩
          rw [ha, Nat.add_right_comm, Nat.add_assoc]
      · rintro ⟨j, hj, ha⟩
        cases j with
        | zero =>
            left
            obtain ⟨dn, da⟩ := d
            simp_all
        | succ j =>
            right
            refine ⟨j, by simpa using hj, ?_⟩
            rw [ha, Nat.add_right_comm, Nat.add_assoc]

theorem mem_children {c d : Cursor} :
    d ∈ c.children ↔ ∃ i, c.node.children[i]? = some d.node
      ∧ d.above = (c.node, i) :: c.above := by
  unfold children
  rw [mem_childrenFrom]
  simp

theorem map_node_childrenFrom (parent : Node) (above : List (Node × Nat))
    (cs : List Node) :
    ∀ i, (childrenFrom parent above i cs).map (·.node) = cs := by
  induction cs with
  | nil => intro i; rfl
  | cons c cs ih => intro i; rw [childrenFrom, List.map_cons, ih]

@[simp] theorem map_node_children (c : Cursor) :
    c.children.map (·.node) = c.node.children :=
  map_node_childrenFrom _ _ _ _

theorem node_mem_of_mem_children {c d : Cursor} (h : d ∈ c.children) :
    d.node ∈ c.node.children := by
  rw [← map_node_children]
  exact List.mem_map_of_mem h

/-- A child's parent is the place it was reached from. -/
theorem parent?_of_mem_children {c d : Cursor} (h : d ∈ c.children) :
    d.parent? = some c := by
  obtain ⟨i, -, ha⟩ := mem_children.1 h
  simp [parent?, ha]

theorem ancestors_of_mem_children {c d : Cursor} (h : d ∈ c.children) :
    d.ancestors = c :: c.ancestors := by
  obtain ⟨i, -, ha⟩ := mem_children.1 h
  simp [ancestors, ha, ancestorsIn]

theorem mem_children_of_child? {c d : Cursor} {r : Role}
    (h : c.child? r = some d) : d ∈ c.children :=
  List.mem_of_find?_eq_some h

-- ============================================================= the walk

mutual

theorem walkNode_eq (above : List (Node × Nat)) (n : Node) :
    walkNode above n
      = ⟨n, above⟩ :: (childrenFrom n above 0 n.children).flatMap walk := by
  obtain ⟨i, k, b, r, l, t, cs, z⟩ := n
  rw [walkNode, walkNodes_eq]

theorem walkNodes_eq (parent : Node) (above : List (Node × Nat)) (i : Nat)
    (cs : List Node) :
    walkNodes parent above i cs
      = (childrenFrom parent above i cs).flatMap walk := by
  cases cs with
  | nil => rfl
  | cons c cs =>
      rw [walkNodes, childrenFrom, List.flatMap_cons,
        walkNodes_eq parent above (i + 1) cs]
      rfl

end

theorem walk_eq (c : Cursor) : c.walk = c :: c.children.flatMap walk :=
  walkNode_eq c.above c.node

theorem self_mem_walk (c : Cursor) : c ∈ c.walk := by
  rw [walk_eq]
  exact List.mem_cons_self

theorem mem_walk_iff {c d : Cursor} :
    d ∈ c.walk ↔ d = c ∨ ∃ e ∈ c.children, d ∈ e.walk := by
  rw [walk_eq, List.mem_cons, List.mem_flatMap]

/-- Induction over the places of a subtree, from below. -/
theorem ind {P : Cursor → Prop}
    (h : ∀ c : Cursor, (∀ d ∈ c.children, P d) → P c) (c : Cursor) : P c := by
  obtain ⟨n, above⟩ := c
  induction n using Node.ind generalizing above with
  | h n ih =>
      refine h _ fun d hd => ?_
      exact ih d.node (node_mem_of_mem_children hd) d.above

theorem map_node_walk (c : Cursor) : c.walk.map (·.node) = c.node.walk := by
  induction c using Cursor.ind with
  | h c ih =>
      rw [walk_eq, Node.walk_eq, List.map_cons, List.map_flatMap,
        ← map_node_children, List.flatMap_map]
      refine congrArg (c.node :: ·) ?_
      exact List.flatMap_congr fun d hd => ih d hd

theorem mem_walk_of_mem_children {c d e : Cursor} (hd : d ∈ c.walk)
    (he : e ∈ d.children) : e ∈ c.walk := by
  induction c using Cursor.ind with
  | h c ih =>
      rcases mem_walk_iff.1 hd with rfl | ⟨f, hf, hd'⟩
      · exact mem_walk_iff.2 (Or.inr ⟨e, he, self_mem_walk e⟩)
      · exact mem_walk_iff.2 (Or.inr ⟨f, hf, ih f hf hd'⟩)

theorem mem_walk_trans {c d e : Cursor} (hd : d ∈ c.walk) (he : e ∈ d.walk) :
    e ∈ c.walk := by
  induction c using Cursor.ind with
  | h c ih =>
      rcases mem_walk_iff.1 hd with rfl | ⟨f, hf, hd'⟩
      · exact he
      · exact mem_walk_iff.2 (Or.inr ⟨f, hf, ih f hf hd'⟩)

-- ======================================================= placed cursors

/-- The places listed lead to the node: each holds the one below at the
index given. -/
def PlacedIn : Node → List (Node × Nat) → Prop
  | _, [] => True
  | n, (p, i) :: up => p.children[i]? = some n ∧ PlacedIn p up

/-- The ancestors that the cursor carries lead to its node. -/
def Placed (c : Cursor) : Prop := PlacedIn c.node c.above

theorem placed_top (n : Node) : (top n).Placed := True.intro

theorem Placed.of_mem_children {c d : Cursor} (hc : c.Placed)
    (hd : d ∈ c.children) : d.Placed := by
  obtain ⟨i, hi, ha⟩ := mem_children.1 hd
  unfold Placed
  rw [ha]
  exact ⟨hi, hc⟩

theorem Placed.of_mem_walk {c d : Cursor} (hc : c.Placed)
    (hd : d ∈ c.walk) : d.Placed := by
  induction c using Cursor.ind with
  | h c ih =>
      rcases mem_walk_iff.1 hd with rfl | ⟨e, he, hd'⟩
      · exact hc
      · exact ih e he (hc.of_mem_children he) hd'

theorem root_of_mem_children {c d : Cursor} (h : d ∈ c.children) :
    d.root = c.root := by
  obtain ⟨i, -, ha⟩ := mem_children.1 h
  simp [root, ha, rootIn]

theorem root_of_mem_walk {c d : Cursor} (hd : d ∈ c.walk) :
    d.root = c.root := by
  induction c using Cursor.ind with
  | h c ih =>
      rcases mem_walk_iff.1 hd with rfl | ⟨e, he, hd'⟩
      · rfl
      · rw [ih e he hd', root_of_mem_children he]

/-- A placed cursor is listed by the walk from its topmost ancestor. -/
theorem Placed.mem_walk_root {c : Cursor} (hc : c.Placed) :
    c ∈ c.root.walk := by
  obtain ⟨n, above⟩ := c
  induction above generalizing n with
  | nil => exact self_mem_walk _
  | cons pi up ih =>
      obtain ⟨p, i⟩ := pi
      have hmem : (⟨n, (p, i) :: up⟩ : Cursor) ∈ (⟨p, up⟩ : Cursor).children :=
        mem_children.2 ⟨i, hc.1, rfl⟩
      rw [root_of_mem_children hmem]
      exact mem_walk_of_mem_children (ih p hc.2) hmem

/-- The places of a tree are the placed cursors under its top. -/
theorem mem_walk_top {n : Node} {c : Cursor} :
    c ∈ (top n).walk ↔ c.Placed ∧ c.root = top n := by
  constructor
  · intro hc
    exact ⟨(placed_top n).of_mem_walk hc, root_of_mem_walk hc⟩
  · rintro ⟨hp, hr⟩
    rw [← hr]
    exact hp.mem_walk_root

theorem Placed.of_mem_ancestors {c a : Cursor} (hc : c.Placed)
    (ha : a ∈ c.ancestors) : a.Placed ∧ a.root = c.root ∧ c ∈ a.walk := by
  obtain ⟨n, above⟩ := c
  induction above generalizing n with
  | nil => simp [ancestors, ancestorsIn] at ha
  | cons pi up ih =>
      obtain ⟨p, i⟩ := pi
      have hmem : (⟨n, (p, i) :: up⟩ : Cursor) ∈ (⟨p, up⟩ : Cursor).children :=
        mem_children.2 ⟨i, hc.1, rfl⟩
      rw [ancestors_of_mem_children hmem, List.mem_cons] at ha
      rw [root_of_mem_children hmem]
      rcases ha with rfl | ha
      · exact ⟨hc.2, rfl, mem_walk_of_mem_children (self_mem_walk _) hmem⟩
      · obtain ⟨h1, h2, h3⟩ := ih p hc.2 ha
        exact ⟨h1, h2, mem_walk_of_mem_children h3 hmem⟩

end Cursor

-- =========================================================== identities

/-- Every node of the tree has an identity, and no two share one. -/
structure Node.Identified (n : Node) : Prop where
  isSome : ∀ m ∈ n.walk, m.id.isSome
  nodup : (n.walk.map (·.id)).Nodup

namespace Cursor

/-- In an identified tree a place is known by its node's identity. -/
theorem eq_of_same {n : Node} (hn : n.Identified) {a b : Cursor}
    (ha : a ∈ (top n).walk) (hb : b ∈ (top n).walk) (h : a.same b = true) :
    a = b := by
  have hnd : ((top n).walk.map fun c => c.node.id).Nodup := by
    have := hn.nodup
    rw [show n = (top n).node from rfl, ← map_node_walk, List.map_map] at this
    exact this
  exact List.inj_on_of_nodup_map hnd ha hb (by simpa [same] using h)

-- ========================================================== parentheses

theorem node_mem_walk {c d : Cursor} (h : d ∈ c.walk) : d.node ∈ c.node.walk := by
  rw [← map_node_walk]
  exact List.mem_map_of_mem h

theorem mem_children_of_mem_operands {c d : Cursor} (h : d ∈ c.operands) :
    d ∈ c.children :=
  List.mem_of_mem_filter h

theorem unparenWithin_cases (fuel : Nat) (c : Cursor) :
    unparenWithin fuel c = c ∨ ∃ d fuel', c.is .parenthesizedExpression = true
      ∧ c.operands = [d] ∧ fuel = fuel' + 1
      ∧ unparenWithin fuel c = unparenWithin fuel' d := by
  cases fuel with
  | zero => exact Or.inl rfl
  | succ fuel =>
      rw [unparenWithin]
      split
      · next hk =>
          split
          · next d hd => exact Or.inr ⟨d, fuel, hk, hd, rfl, rfl⟩
          · exact Or.inl rfl
      · exact Or.inl rfl

theorem unparenWithin_of_no_operand {c : Cursor}
    (h : c.is .parenthesizedExpression = true → ∀ d, c.operands ≠ [d]) (fuel : Nat) :
    unparenWithin fuel c = c := by
  rcases unparenWithin_cases fuel c with hu | ⟨d, _, hk, hd, -⟩
  · exact hu
  · exact absurd hd (h hk d)

theorem unparenWithin_add (a b : Nat) (c : Cursor) :
    unparenWithin (a + b) c = unparenWithin b (unparenWithin a c) := by
  induction a generalizing c with
  | zero => rw [Nat.zero_add, unparenWithin]
  | succ a ih =>
      rw [show a + 1 + b = (a + b) + 1 by omega, unparenWithin, unparenWithin]
      split
      · split
        · exact ih _
        · next hne => exact (unparenWithin_of_no_operand (fun _ => hne) b).symm
      · next hk => exact (unparenWithin_of_no_operand (fun h => absurd h hk) b).symm

theorem unparenWithin_mem_walk (fuel : Nat) (c : Cursor) :
    unparenWithin fuel c ∈ c.walk := by
  induction fuel generalizing c with
  | zero => exact self_mem_walk c
  | succ fuel ih =>
      rcases unparenWithin_cases (fuel + 1) c with h | ⟨d, fuel', -, hd, hf, h⟩
      · rw [h]
        exact self_mem_walk c
      · obtain rfl : fuel = fuel' := by omega
        rw [h]
        have hmem : d ∈ c.children :=
          mem_children_of_mem_operands (by rw [hd]; exact List.mem_singleton.2 rfl)
        exact mem_walk_iff.2 (Or.inr ⟨d, hmem, ih d⟩)

/-- What stands in parentheses stands below them. -/
theorem unparen_mem_walk (c : Cursor) : c.unparen ∈ c.walk :=
  unparenWithin_mem_walk _ c

/-- With enough fuel nothing is left to take off. -/
theorem unparenWithin_fixed {c : Cursor} (fuel : Nat) (hf : c.node.size ≤ fuel) :
    ∀ fuel', unparenWithin fuel' (unparenWithin fuel c) = unparenWithin fuel c := by
  induction fuel generalizing c with
  | zero =>
      have hpos : 0 < c.node.size := by
        obtain ⟨⟨i, k, b, r, l, t, cs, z⟩, above⟩ := c
        rw [Node.size]
        omega
      omega
  | succ fuel ih =>
      intro fuel'
      rcases unparenWithin_cases (fuel + 1) c with h | ⟨d, f, -, hd, hff, h⟩
      · rw [h]
        rcases unparenWithin_cases fuel' c with h' | ⟨d, f, hk, hd, -, -⟩
        · exact h'
        · rw [unparenWithin, if_pos hk, hd] at h
          have hmem : d ∈ c.children :=
            mem_children_of_mem_operands (by rw [hd]; exact List.mem_singleton.2 rfl)
          have hwalk : c ∈ d.walk := by
            rw [← h]
            exact unparenWithin_mem_walk fuel d
          have := Node.size_le_of_mem_walk (node_mem_walk hwalk)
          have := Node.size_lt_of_mem_children (node_mem_of_mem_children hmem)
          omega
      · obtain rfl : fuel = f := by omega
        have hmem : d ∈ c.children :=
          mem_children_of_mem_operands (by rw [hd]; exact List.mem_singleton.2 rfl)
        have hlt := Node.size_lt_of_mem_children (node_mem_of_mem_children hmem)
        rw [h]
        exact ih (by omega) fuel'

/-- Parentheses around one expression come off. -/
theorem unparen_of_operands {c d : Cursor} (hk : c.is .parenthesizedExpression = true)
    (hd : c.operands = [d]) : c.unparen = d.unparen := by
  have hmem : d ∈ c.children :=
    mem_children_of_mem_operands (by rw [hd]; exact List.mem_singleton.2 rfl)
  have hlt := Node.size_lt_of_mem_children (node_mem_of_mem_children hmem)
  obtain ⟨b, hb⟩ : ∃ b, c.node.size = d.node.size + b + 1 :=
    ⟨c.node.size - d.node.size - 1, by omega⟩
  rw [unparen, hb, unparenWithin, if_pos hk, hd]
  show unparenWithin (d.node.size + b) d = d.unparen
  rw [unparenWithin_add]
  exact unparenWithin_fixed _ (Nat.le_refl _) b

/-- Anything else is left as it is. -/
theorem unparen_of_no_operand {c : Cursor}
    (h : c.is .parenthesizedExpression = true → ∀ d, c.operands ≠ [d]) :
    c.unparen = c :=
  unparenWithin_of_no_operand h _

theorem unparen_of_not_parens {c : Cursor} (h : c.is .parenthesizedExpression = false) :
    c.unparen = c :=
  unparen_of_no_operand fun hk => by rw [h] at hk; cases hk

@[simp] theorem unparen_unparen (c : Cursor) : c.unparen.unparen = c.unparen :=
  unparenWithin_fixed c.node.size (Nat.le_refl _) _

end Cursor

namespace Node

mutual

theorem ids_renumber (k : Nat) (n : Node) :
    (n.renumber k).1.walk.map (·.id) = (List.range' k n.size).map some
      ∧ (n.renumber k).2 = k + n.size := by
  obtain ⟨i, s, b, r, l, t, cs, z⟩ := n
  obtain ⟨h1, h2⟩ := ids_renumberAll (k + 1) cs
  constructor
  · simp only [renumber, walk, List.map_cons, h1, size]
    rw [List.range'_succ, List.map_cons]
  · simp only [renumber, h2, size]
    omega

theorem ids_renumberAll (k : Nat) (cs : List Node) :
    (walkAll (renumberAll k cs).1).map (·.id)
        = (List.range' k (sizeAll cs)).map some
      ∧ (renumberAll k cs).2 = k + sizeAll cs := by
  cases cs with
  | nil => exact ⟨rfl, rfl⟩
  | cons c cs =>
      obtain ⟨h1, h2⟩ := ids_renumber k c
      obtain ⟨h3, h4⟩ := ids_renumberAll (k + c.size) cs
      constructor
      · simp only [renumberAll, h2, walkAll, List.map_append, h1, h3, sizeAll]
        rw [← List.map_append, List.range'_append_1]
      · simp only [renumberAll, h2, h4, sizeAll]
        omega

end

mutual

theorem size_renumber (k : Nat) (n : Node) : (n.renumber k).1.size = n.size := by
  obtain ⟨i, s, b, r, l, t, cs, z⟩ := n
  rw [renumber, size, size, sizeAll_renumberAll (k + 1) cs]

theorem sizeAll_renumberAll (k : Nat) (cs : List Node) :
    sizeAll (renumberAll k cs).1 = sizeAll cs := by
  cases cs with
  | nil => rfl
  | cons c cs =>
      rw [renumberAll, sizeAll, sizeAll, size_renumber k c, sizeAll_renumberAll _ cs]

end

theorem identified_renumber (k : Nat) (n : Node) :
    (n.renumber k).1.Identified := by
  have h := (ids_renumber k n).1
  constructor
  · intro m hm
    have hmem := List.mem_map_of_mem (f := (·.id)) hm
    rw [h] at hmem
    obtain ⟨j, -, hj⟩ := List.mem_map.1 hmem
    rw [← hj]
    rfl
  · rw [h]
    exact (List.nodup_range' ..).map fun _ _ h => Option.some.inj h

end Node

/-- What is parsed has bytes and a tree, and the result is that tree with
its nodes numbered. -/
theorem exists_of_parse {source : Text} {n : Node} (h : parse source = .ok n) :
    ∃ cs m, source.toChars? = some cs ∧ Parse.tree? cs = some m
      ∧ n = (m.renumber 0).1 := by
  unfold parse at h
  split at h
  · cases h
  · next cs hcs =>
      split at h
      · cases h
      · next m hm => exact ⟨cs, m, hcs, hm, (Except.ok.inj h).symm⟩

theorem eq_ok_of_toOption {α β : Type} {x : Except α β} {b : β}
    (h : x.toOption = some b) : x = .ok b := by
  cases x with
  | error e => cases h
  | ok a => exact congrArg Except.ok (Option.some.inj h)

theorem exists_of_parse_any (source : Text) (test : Node → Bool)
    (h : (parse source).toOption.any test = true) :
    ∃ n, parse source = .ok n ∧ test n = true := by
  cases hn : parse source with
  | error f =>
      rw [hn] at h
      cases h
  | ok n =>
      rw [hn] at h
      exact ⟨n, rfl, h⟩

/-- The nodes of a parsed program are identified. -/
theorem parse_identified {s : Text} {n : Node} (h : parse s = .ok n) :
    n.Identified := by
  obtain ⟨cs, m, -, -, rfl⟩ := exists_of_parse h
  exact Node.identified_renumber 0 m

theorem Parse.Progress.kind_close {src : List Char} (s : Parse.Progress src) :
    s.close.kind = .symbol .program := by
  unfold Parse.Progress.close Node.gather
  split
  · rfl
  · split <;> rfl

/-- The top of a parsed program is the program. -/
theorem parse_program {s : Text} {n : Node} (h : parse s = .ok n) :
    n.is .program = true := by
  obtain ⟨cs, m, -, hm, rfl⟩ := exists_of_parse h
  have hkind : (m.renumber 0).1.kind = m.kind := by
    obtain ⟨i, k, b, r, l, t, ds, z⟩ := m
    rfl
  rw [Node.is, hkind]
  unfold Parse.tree? at hm
  split at hm
  · cases hm
  · split at hm
    · cases hm
    · rw [← Option.some.inj hm, Parse.Progress.kind_close]
      rfl

-- ======================================================= places by index

namespace Cursor

theorem mem_walk_of_follow? {c d : Cursor} {path : List Nat}
    (h : c.follow? path = some d) : d ∈ c.walk := by
  induction path generalizing c with
  | nil =>
      obtain rfl : c = d := by simpa [follow?] using h
      exact self_mem_walk c
  | cons i path ih =>
      rw [follow?] at h
      split at h
      · next e he =>
          exact mem_walk_iff.2 (Or.inr ⟨e, List.mem_of_getElem? he, ih h⟩)
      · cases h

/-- The source parses, and the test holds at the place that the indices
lead to. -/
def holdsAt (source : Text) (path : List Nat) (test : Cursor → Bool) : Bool :=
  match parse source with
  | .error _ => false
  | .ok n => ((top n).follow? path).any test

theorem exists_of_holdsAt {source : Text} {path : List Nat}
    {test : Cursor → Bool} (h : holdsAt source path test = true) :
    ∃ n c, parse source = .ok n ∧ c ∈ (top n).walk ∧ test c = true := by
  unfold holdsAt at h
  split at h
  · cases h
  · next n hn =>
      cases hc : (top n).follow? path with
      | none => rw [hc] at h; cases h
      | some c =>
          rw [hc] at h
          exact ⟨n, c, hn, mem_walk_of_follow? hc, h⟩

end Cursor

end Codemod
