/-
Replacing one node.

A node that replaces another is taken out of its tree first. If it stands
below the one replaced, that node alone is changed by this, and the place is
still there; so in every tree the replacement comes to one substitution
(`replace_eq`). No identity is used twice afterwards
(`Fills.separate_replaced`), so that all that is said of single nodes can be
read off the look-up: what stands in the place, what is left of the node, and
that every other node is where it was (`Fills.exists_keeps`).

Main statement: `Workspace.replace_splices`.
-/
import Codemod.Proofs.Tree.Context

namespace Codemod

open Cursor

-- ============================================================= the numbers

namespace Node

theorem numberAll_of_isSome {cs : List Node} {k : Nat}
    (h : ∀ c ∈ cs, ∀ k, c.number k = (c, k)) : numberAll k cs = (cs, k) := by
  induction cs generalizing k with
  | nil => rfl
  | cons c cs ih =>
    rw [List.forall_mem_cons] at h
    rw [numberAll_cons, h.1 k, ih h.2]

/-- Where all nodes have identities none is given. -/
theorem number_of_isSome {n : Node} (h : ∀ m ∈ n.walk, m.id.isSome) (k : Nat) :
    n.number k = (n, k) := by
  induction n using Node.ind generalizing k with
  | h n ih =>
    obtain ⟨i, hi⟩ := Option.isSome_iff_exists.1 (h n (self_mem_walk n))
    have hown : n.ownNumber k = (i, k) := by rw [ownNumber, hi]
    have hcs : numberAll k n.children = (n.children, k) := numberAll_of_isSome fun c hc =>
      ih c hc fun m hm => h m (mem_walk_of_child hc hm)
    rw [number_eq, hown, hcs]
    obtain ⟨i', s, b, r, l, t, cs, z⟩ := n
    obtain rfl : i' = some i := hi
    rfl

/-- What is put in for a node holds the node, with nothing but its role
and lead changed. -/
theorem exists_mem_walk_fitted (parent old : Node) (k : Nat) {new : Node}
    (h : ∀ m ∈ new.walk, m.id.isSome) :
    ∃ r l, new.placed r l ∈ ((Workspace.fitted parent old new).number k).1.walk := by
  have hplaced : ∀ r l, ∀ m ∈ (new.placed r l).walk, m.id.isSome := fun r l =>
    isSome_of_subset h fun i hi => by rwa [walk_ids_placed] at hi
  unfold Workspace.fitted
  split
  · refine ⟨none, [], ?_⟩
    rw [number_eq]
    refine mem_walk_of_child (c := new.placed none []) ?_ (self_mem_walk _)
    show _ ∈ (numberAll _ [token "(", new.placed none [], token ")"]).1
    rw [numberAll_cons, numberAll_cons, number_of_isSome (hplaced _ _)]
    exact List.mem_cons_of_mem _ List.mem_cons_self
  · exact ⟨_, _, by rw [number_of_isSome (hplaced _ _)]; exact self_mem_walk _⟩

end Node

-- ================================================================ the trees

namespace Workspace

/-- Where a replacement comes from: it is a tree of its own beside the
program, but not the one that holds the node, or it stands below the
node. -/
inductive Movable (w : Workspace) (c : Cursor) : Cursor → Prop
  | loose {t : Node} : t ∈ w.loose → top t ≠ c.root → Movable w c (top t)
  | below {d : Cursor} : d ∈ c.walk → d ≠ c → Movable w c d

/-- The node `d` can take the place of the node `c` below `p`. -/
structure Fills (w : Workspace) (i j : Nat) (p c d : Cursor) : Prop where
  separate : w.Separate
  old : w.find? i = some c
  parent : c.parent? = some p
  new : w.find? j = some d
  movable : w.Movable c d

/-- What is written for the node in its place. -/
def written (parent old new : Node) : Text :=
  if needsParentheses new.kind parent.kind old.role then
    Text.ofString "(" ++ (new.code ++ Text.ofString ")")
  else new.code

theorem code_fitted (parent old new : Node) :
    (fitted parent old new).code = written parent old new := by
  unfold fitted written
  rw [Node.code_placed]
  split
  · rw [Build.parenthesized, Node.code_branch, Node.codeAll_cons, Node.codeAll_cons,
      Node.codeAll_singleton, Node.render, Node.code_placed]
    rfl
  · rfl

variable {w : Workspace} {i j : Nat} {p c d : Cursor} {t u : Node}

/-- A workspace without some of the nodes. -/
theorem Separate.withdraw (h : w.Separate) (gone : List Nat) :
    (w.withdraw gone).Separate := by
  have htrees : (w.withdraw gone).trees = w.program.prune gone
      :: (w.loose.filter fun n => !n.isIn gone).map (·.prune gone) := rfl
  have hsub : ((w.withdraw gone).trees.flatMap Node.ids).Sublist
      (w.trees.flatMap Node.ids) := by
    rw [htrees, trees, List.flatMap_cons, List.flatMap_cons, List.flatMap_map]
    exact (Node.ids_prune_sublist gone _).append
      (Node.sublist_flatMap_filter _ fun n _ => Node.ids_prune_sublist gone n)
  have hsome : ∀ n ∈ w.trees, ∀ m ∈ (n.prune gone).walk, m.id.isSome := fun n hn =>
    Node.isSome_of_subset (h.isSome n hn) (Node.walk_ids_prune gone n).subset
  refine ⟨?_, h.nodup.sublist hsub, fun i hi => h.bounded i (hsub.subset hi)⟩
  rw [htrees]
  refine List.forall_mem_cons.2 ⟨hsome _ List.mem_cons_self, fun n hn => ?_⟩
  obtain ⟨m, hm, rfl⟩ := List.mem_map.1 hn
  exact hsome m (List.mem_cons_of_mem _ (List.mem_of_mem_filter hm))

/-- The trees but for those that have the identity at the top: these are
the ones that stay when the node is taken out. -/
def stays (w : Workspace) (j : Nat) : List Node :=
  w.program :: w.loose.filter fun n => !n.isIn [j]

theorem mem_trees_of_stays (h : t ∈ w.stays j) : t ∈ w.trees :=
  (List.mem_cons.1 h).elim (fun h => h ▸ List.mem_cons_self) fun h =>
    List.mem_cons_of_mem _ (List.mem_of_mem_filter h)

theorem flatMap_stays_sublist (j : Nat) :
    ((w.stays j).flatMap Node.ids).Sublist (w.trees.flatMap Node.ids) := by
  rw [stays, trees, List.flatMap_cons, List.flatMap_cons]
  exact (List.Sublist.refl _).append
    (Node.sublist_flatMap_filter _ fun n _ => List.Sublist.refl n.ids)

theorem trees_withdraw (w : Workspace) (j : Nat) :
    (w.withdraw [j]).trees = (w.stays j).map (·.prune [j]) := rfl

/-- The program is not one of the trees beside it. -/
theorem Separate.program_not_mem (h : w.Separate) : w.program ∉ w.loose := by
  intro hmem
  obtain ⟨k, hk⟩ := Option.isSome_iff_exists.1
    (h.isSome w.program List.mem_cons_self w.program (Node.self_mem_walk _))
  have hid : k ∈ w.program.ids := Node.mem_ids.2 ⟨_, Node.self_mem_walk _, hk⟩
  have hnd := h.nodup
  rw [trees, List.flatMap_cons, List.nodup_append] at hnd
  exact hnd.2.2 k hid k (List.mem_flatMap.2 ⟨_, hmem, hid⟩) rfl

namespace Fills

theorem id_old (h : w.Fills i j p c d) : c.node.id = some i := by
  obtain ⟨-, -, -, hi⟩ := find?_eq_some h.old
  exact hi

theorem id_new (h : w.Fills i j p c d) : d.node.id = some j := by
  obtain ⟨-, -, -, hj⟩ := find?_eq_some h.new
  exact hj

/-- The tree that the node stands in. -/
theorem root_mem (h : w.Fills i j p c d) :
    c.root.node ∈ w.trees ∧ c ∈ (top c.root.node).walk := by
  obtain ⟨t, ht, hc, -⟩ := find?_eq_some h.old
  have hroot : c.root = top t := (mem_walk_top.1 hc).2
  rw [hroot]
  exact ⟨ht, hc⟩

theorem placed (h : w.Fills i j p c d) : c.Placed := (mem_walk_top.1 h.root_mem.2).1

theorem nodup_root (h : w.Fills i j p c d) : c.root.node.ids.Nodup :=
  (List.nodup_flatMap.1 h.separate.nodup).1 _ h.root_mem.1

theorem ids_old_subset (h : w.Fills i j p c d) : c.node.ids ⊆ c.root.node.ids :=
  (Node.ids_sublist_of_mem_walk (node_mem_walk h.root_mem.2)).subset

theorem nodup_old (h : w.Fills i j p c d) : c.node.ids.Nodup :=
  h.nodup_root.sublist (Node.ids_sublist_of_mem_walk (node_mem_walk h.root_mem.2))

theorem mem_ids_old (h : w.Fills i j p c d) : i ∈ c.node.ids :=
  Node.mem_ids.2 ⟨_, Node.self_mem_walk _, h.id_old⟩

theorem mem_ids_new (h : w.Fills i j p c d) : j ∈ d.node.ids :=
  Node.mem_ids.2 ⟨_, Node.self_mem_walk _, h.id_new⟩

/-- The replacement stands below the node, or its nodes are those of a tree
that does not stay. -/
theorem below_or (h : w.Fills i j p c d) :
    (d ∈ c.walk ∧ d ≠ c) ∨ (d.node ∈ w.loose ∧ d = top d.node ∧ d.node ≠ c.root.node) := by
  obtain ⟨-, -, hp, -, hm⟩ := h
  cases hm with
  | below hd hne => exact Or.inl ⟨hd, hne⟩
  | loose ht hne => exact Or.inr ⟨ht, rfl, fun heq => hne (congrArg top heq)⟩

theorem nodup_new (h : w.Fills i j p c d) : d.node.ids.Nodup := by
  obtain ⟨u, hu, hd, -⟩ := find?_eq_some h.new
  exact ((List.nodup_flatMap.1 h.separate.nodup).1 u hu).sublist
    (Node.ids_sublist_of_mem_walk (node_mem_walk hd))

theorem isSome_new (h : w.Fills i j p c d) : ∀ m ∈ d.node.walk, m.id.isSome := by
  obtain ⟨u, hu, hd, -⟩ := find?_eq_some h.new
  exact fun m hm => h.separate.isSome u hu m (Node.mem_walk_trans (node_mem_walk hd) hm)

/-- A replacement that is a tree does not stay. -/
theorem not_mem_stays_new (h : w.Fills i j p c d) (hd : d.node ∈ w.loose) :
    d.node ∉ w.stays j := by
  intro ht
  rcases List.mem_cons.1 ht with heq | hmem
  · exact h.separate.program_not_mem (heq ▸ hd)
  · have hin := (List.mem_filter.1 hmem).2
    rw [Bool.not_eq_true', Node.isIn_singleton] at hin
    exact hin h.id_new

/-- What the replacement has in common with the trees that stay it takes
from the node. -/
theorem mem_ids_old_of_mem (h : w.Fills i j p c d) (ht : t ∈ w.stays j) {k : Nat}
    (hk : k ∈ d.node.ids) (hkt : k ∈ t.ids) : k ∈ c.node.ids := by
  rcases h.below_or with ⟨hbelow, -⟩ | ⟨hd, -, -⟩
  · exact (Node.ids_sublist_of_mem_walk (node_mem_walk hbelow)).subset hk
  · obtain rfl := h.separate.eq_of_mem_ids (List.mem_cons_of_mem _ hd)
      (mem_trees_of_stays ht) hk hkt
    exact absurd ht (h.not_mem_stays_new hd)

/-- The node is no part of its replacement. -/
theorem not_mem_new (h : w.Fills i j p c d) : i ∉ d.node.ids := by
  intro hi
  rcases h.below_or with ⟨hbelow, hne⟩ | ⟨hloose, -, hroot⟩
  · obtain ⟨e, he, hd⟩ := (mem_walk_iff.1 hbelow).resolve_left hne
    have hie := (Node.ids_sublist_of_mem_walk (node_mem_walk hd)).subset hi
    exact Node.id_ne_of_mem_child h.nodup_old (node_mem_of_mem_children he) hie h.id_old
  · exact hroot (h.separate.eq_of_mem_ids (List.mem_cons_of_mem _ hloose) h.root_mem.1 hi
      (h.ids_old_subset h.mem_ids_old))

theorem id_old_ne (h : w.Fills i j p c d) : c.node.id ≠ some j := by
  intro hid
  obtain rfl : i = j := Option.some.inj (h.id_old.symm.trans hid)
  exact h.not_mem_new h.mem_ids_new

/-- Taking out the replacement changes the tree below the node at most. -/
theorem prune_root (h : w.Fills i j p c d) :
    c.root.node.prune [j] = plug c.above (c.node.prune [j]) := by
  rcases h.below_or with ⟨hbelow, -⟩ | ⟨hloose, -, hroot⟩
  · have hj := (Node.ids_sublist_of_mem_walk (node_mem_walk hbelow)).subset h.mem_ids_new
    exact prune_rootIn h.placed h.nodup_root hj h.id_old_ne
  · have hj : ∀ k ∈ c.root.node.ids, k ∉ [j] := by
      rintro k hk hkj
      obtain rfl := List.mem_singleton.1 hkj
      exact hroot (h.separate.eq_of_mem_ids (List.mem_cons_of_mem _ hloose) h.root_mem.1
        h.mem_ids_new hk)
    rw [Node.prune_of_not_mem hj,
      Node.prune_of_not_mem fun k hk => hj k (h.ids_old_subset hk)]
    exact (plug_eq_rootIn h.placed).symm

/-- The tree around the node stays. -/
theorem root_mem_stays (h : w.Fills i j p c d) : c.root.node ∈ w.stays j := by
  rcases List.mem_cons.1 h.root_mem.1 with heq | hloose
  · rw [heq]
    exact List.mem_cons_self
  · refine List.mem_cons_of_mem _ (List.mem_filter.2 ⟨hloose, ?_⟩)
    rw [Bool.not_eq_true', Node.isIn_singleton]
    intro hid
    have hj : j ∈ c.root.node.ids := Node.mem_ids.2 ⟨_, Node.self_mem_walk _, hid⟩
    rcases h.below_or with ⟨hbelow, -⟩ | ⟨hd, -, hroot⟩
    · have hne : c ≠ top c.root.node := fun heq => by
        have hp := h.parent
        rw [heq] at hp
        cases hp
      obtain ⟨e, he, hce⟩ := (mem_walk_iff.1 h.root_mem.2).resolve_left hne
      have hje := (Node.ids_sublist_of_mem_walk
        (node_mem_walk (mem_walk_trans hce hbelow))).subset h.mem_ids_new
      exact Node.id_ne_of_mem_child h.nodup_root (node_mem_of_mem_children he) hje hid
    · exact hroot (h.separate.eq_of_mem_ids (List.mem_cons_of_mem _ hd) h.root_mem.1
        h.mem_ids_new hj)

/-- In the other trees that stay there is neither the node nor the
replacement. -/
theorem not_mem_stays (h : w.Fills i j p c d) (ht : t ∈ w.stays j) (hne : t ≠ c.root.node) :
    i ∉ t.ids ∧ j ∉ t.ids := by
  have hother : ∀ k ∈ c.node.ids, k ∉ t.ids := fun k hk hkt =>
    hne (h.separate.eq_of_mem_ids (mem_trees_of_stays ht) h.root_mem.1 hkt
      (h.ids_old_subset hk))
  exact ⟨hother i h.mem_ids_old,
    fun hj => hother j (h.mem_ids_old_of_mem ht h.mem_ids_new hj) hj⟩

/-- What stands for the node when the replacement has been taken out. -/
theorem find?_withdraw (h : w.Fills i j p c d) :
    (w.withdraw [j]).find? i = some (c.refill (c.node.prune [j])) := by
  refine (h.separate.withdraw [j]).find?_eq (t := c.root.node.prune [j]) ?_ ?_ ?_
  · rw [trees_withdraw]
    exact List.mem_map_of_mem h.root_mem_stays
  · rw [h.prune_root]
    exact refill_mem_walk h.placed _
  · show (c.node.prune [j]).id = some i
    rw [Node.prune_eq]
    exact h.id_old

/-- In the tree around the node, what is put in stands in its place. -/
theorem substitute_root (h : w.Fills i j p c d) (x : Node) :
    c.root.node.substitute i (fun _ _ => x) = plug c.above x :=
  substitute_eq_plug h.placed h.nodup_root h.id_old h.parent

/-- Replacing in a tree that stays does not depend on whether the replacement
has been taken out. -/
theorem substitute_prune (h : w.Fills i j p c d) (ht : t ∈ w.stays j) (x : Node) :
    (t.prune [j]).substitute i (fun _ _ => x) = t.substitute i fun _ _ => x := by
  by_cases hne : t = c.root.node
  · obtain ⟨q, -, hparent, -⟩ := parent?_refill h.parent (c.node.prune [j])
    obtain ⟨hplaced, hroot⟩ := placedIn_replug h.placed (c.node.prune [j])
    have hroot' : (c.refill (c.node.prune [j])).root.node = c.root.node.prune [j] :=
      hroot.trans h.prune_root.symm
    have hnd : (c.refill (c.node.prune [j])).root.node.ids.Nodup := by
      rw [hroot']
      exact h.nodup_root.sublist (Node.ids_prune_sublist _ _)
    have hid : (c.refill (c.node.prune [j])).node.id = some i := by
      show (c.node.prune [j]).id = some i
      rw [Node.prune_eq]
      exact h.id_old
    have hafter := substitute_eq_plug (f := fun _ _ => x)
      (c := c.refill (c.node.prune [j])) hplaced hnd hid hparent
    rw [hroot'] at hafter
    rw [hne, hafter, h.substitute_root x]
    exact plug_replug _ _
  · obtain ⟨-, hj⟩ := h.not_mem_stays ht hne
    rw [Node.prune_of_not_mem]
    rintro k hk hkj
    exact hj (List.mem_singleton.1 hkj ▸ hk)

theorem bounded_new (h : w.Fills i j p c d) : ∀ k ∈ d.node.ids, k < w.next := by
  obtain ⟨u, hu, hd, -⟩ := find?_eq_some h.new
  exact fun k hk => h.separate.bounded k (List.mem_flatMap.2
    ⟨u, hu, (Node.ids_sublist_of_mem_walk (node_mem_walk hd)).subset hk⟩)

/-- What is put in has the nodes of the replacement, and new ones. -/
theorem ids_inserted (h : w.Fills i j p c d) :
    (w.inserted p.node c.node d.node).1.ids.Nodup
      ∧ ∀ k ∈ (w.inserted p.node c.node d.node).1.ids, k ∈ d.node.ids
        ∨ (w.next ≤ k ∧ k < (w.inserted p.node c.node d.node).2) := by
  have hnumbered := numbered_inserted w p.node c.node d.node
  have hnodup := hnumbered.nodup
  have hfresh := hnumbered.fresh
  simp only [List.flatMap_singleton, ids_fitted] at hnodup hfresh
  exact ⟨hnodup h.nodup_new h.bounded_new, hfresh⟩

theorem isSome_substitute (h : w.Fills i j p c d) (ht : t ∈ w.stays j) {x : Node}
    (hx : ∀ m ∈ x.walk, m.id.isSome) :
    ∀ m ∈ (t.substitute i fun _ _ => x).walk, m.id.isSome := by
  by_cases hne : t = c.root.node
  · rw [hne, h.substitute_root]
    exact isSome_plug h.placed (h.separate.isSome _ h.root_mem.1) hx
  · rw [Node.substitute_of_not_mem (h.not_mem_stays ht hne).1]
    exact h.separate.isSome t (mem_trees_of_stays ht)

/-- The replacement has the node's place in the trees that stay. -/
theorem exists_perm (h : w.Fills i j p c d) (x : Node) : ∃ around,
    ((w.stays j).flatMap Node.ids).Perm (c.node.ids ++ around)
      ∧ (((w.stays j).map (·.substitute i fun _ _ => x)).flatMap Node.ids).Perm
        (x.ids ++ around) := by
  obtain ⟨l, m, hstays⟩ := List.append_of_mem h.root_mem_stays
  obtain ⟨before, after, hplug⟩ := listed_plug h.placed fun _ _ => true
  simp only [← Node.ids_eq_listed] at hplug
  have hroot : c.root.node.ids = before ++ (c.node.ids ++ after) := by
    rw [← hplug c.node, plug_eq_rootIn h.placed]
    rfl
  have hroot' : (c.root.node.substitute i fun _ _ => x).ids = before ++ (x.ids ++ after) := by
    rw [h.substitute_root, hplug]
  have hnd : ((w.stays j).flatMap Node.ids).Nodup :=
    h.separate.nodup.sublist (flatMap_stays_sublist j)
  rw [hstays, List.flatMap_append, List.flatMap_cons, List.nodup_append,
    List.nodup_append] at hnd
  have hi : i ∈ c.root.node.ids := h.ids_old_subset h.mem_ids_old
  have hl : l.map (·.substitute i fun _ _ => x) = l := by
    conv_rhs => rw [← List.map_id l]
    refine List.map_congr_left fun t ht => Node.substitute_of_not_mem fun hit => ?_
    exact hnd.2.2 i (List.mem_flatMap.2 ⟨t, ht, hit⟩) i (List.mem_append_left _ hi) rfl
  have hm : m.map (·.substitute i fun _ _ => x) = m := by
    conv_rhs => rw [← List.map_id m]
    refine List.map_congr_left fun t ht => Node.substitute_of_not_mem fun hit => ?_
    exact hnd.2.1.2.2 i hi i (List.mem_flatMap.2 ⟨t, ht, hit⟩) rfl
  obtain ⟨around, hperm⟩ : ∃ around : List Nat, ∀ ids,
      (l.flatMap Node.ids ++ (before ++ (ids ++ after) ++ m.flatMap Node.ids)).Perm
        (ids ++ around) := by
    refine ⟨before ++ (after ++ (l.flatMap Node.ids ++ m.flatMap Node.ids)),
      fun ids => List.perm_iff_count.2 fun a => ?_⟩
    simp only [List.count_append]
    omega
  refine ⟨around, ?_, ?_⟩
  · rw [hstays, List.flatMap_append, List.flatMap_cons, hroot]
    exact hperm c.node.ids
  · rw [hstays, List.map_append, List.map_cons, hl, hm, List.flatMap_append,
      List.flatMap_cons, hroot']
    exact hperm x.ids

end Fills

/-- What is left of the node when it is replaced. -/
def remains (w : Workspace) (j : Nat) (p c d : Cursor) : Node :=
  ((c.node.prune [j]).prune (w.inserted p.node c.node d.node).1.ids).placed c.node.role []

/-- The workspace with the replacement: in each tree that stays it is put in
for the node, and what is left of the node is a tree. -/
def replaced (w : Workspace) (i j : Nat) (p c d : Cursor) : Workspace :=
  let x := (w.inserted p.node c.node d.node).1
  { program := w.program.substitute i fun _ _ => x
    loose := w.remains j p c d
      :: (w.loose.filter fun n => !n.isIn [j]).map (·.substitute i fun _ _ => x)
    next := (w.inserted p.node c.node d.node).2 }

theorem mem_trees_replaced {i j : Nat} {p c d : Cursor} {t : Node} :
    t ∈ (w.replaced i j p c d).trees ↔ t = w.remains j p c d
      ∨ ∃ u ∈ w.stays j,
        u.substitute i (fun _ _ => (w.inserted p.node c.node d.node).1) = t := by
  rw [replaced, trees, List.mem_cons, List.mem_cons, ← List.mem_map, stays, List.map_cons,
    List.mem_cons]
  exact or_left_comm

theorem replace_eq (h : w.Fills i j p c d) :
    w.replace i j = (w.replaced i j p c d,
      .ok ((w.inserted p.node c.node d.node).1.id.getD j)) := by
  obtain ⟨q, k, hparent, -, hq⟩ := parent?_refill h.parent (c.node.prune [j])
  have hij : (i == j) = false := by
    rw [beq_eq_false_iff_ne]
    exact fun heq => h.id_old_ne (heq ▸ h.id_old)
  have hfitted : fitted q.node (c.node.prune [j]) d.node = fitted p.node c.node d.node := by
    rw [hq, Node.prune_eq]
    rfl
  have hid : (c.node.prune [j]).id = some i := by
    rw [Node.prune_eq]
    exact h.id_old
  have hrole : (c.node.prune [j]).role = c.node.role := by rw [Node.prune_eq]
  have hprogram := h.substitute_prune (t := w.program) List.mem_cons_self
    (w.inserted p.node c.node d.node).1
  have hloose : (w.withdraw [j]).loose.map (·.substitute i fun _ _ =>
      (w.inserted p.node c.node d.node).1) = (w.loose.filter fun n => !n.isIn [j]).map
        (·.substitute i fun _ _ => (w.inserted p.node c.node d.node).1) := by
    rw [withdraw, List.map_map]
    exact List.map_congr_left fun t ht => h.substitute_prune (List.mem_cons_of_mem _ ht) _
  have hsplice : (w.withdraw [j]).splice q.node (c.node.prune [j]) d.node
      = w.replaced i j p c d := by
    unfold splice replaced remains
    rw [hid]
    dsimp only
    rw [hfitted, hrole]
    exact congrArg₂ (fun a b => (⟨a, _ :: b, _⟩ : Workspace)) hprogram hloose
  unfold replace
  rw [h.old, h.new, Option.bind_some, h.parent]
  dsimp only
  rw [hij, if_neg Bool.false_ne_true, h.find?_withdraw]
  dsimp only
  rw [hparent]
  show ((w.withdraw [j]).splice q.node (c.node.prune [j]) d.node,
    Except.ok (((fitted q.node (c.node.prune [j]) d.node).number w.next).1.id.getD j)) = _
  rw [hsplice, hfitted]
  rfl

theorem ids_remains_sublist : (w.remains j p c d).ids.Sublist c.node.ids := by
  rw [remains, Node.ids_placed]
  exact (Node.ids_prune_sublist _ _).trans (Node.ids_prune_sublist _ _)

namespace Fills

theorem isSome_remains (h : w.Fills i j p c d) :
    ∀ m ∈ (w.remains j p c d).walk, m.id.isSome := by
  have hsome : ∀ m ∈ c.node.walk, m.id.isSome := fun m hm =>
    h.separate.isSome _ h.root_mem.1 m (Node.mem_walk_trans (node_mem_walk h.root_mem.2) hm)
  refine Node.isSome_of_subset hsome ?_
  rw [remains, Node.walk_ids_placed]
  exact fun k hk => (Node.walk_ids_prune _ _).subset ((Node.walk_ids_prune _ _).subset hk)

theorem lt_next (h : w.Fills i j p c d) {k : Nat} (hk : k ∈ (w.stays j).flatMap Node.ids) :
    k < w.next :=
  h.separate.bounded k ((flatMap_stays_sublist j).subset hk)

/-- What is put in has in common with the trees that stay only what the
replacement takes from the node. -/
theorem mem_ids_old_of_inserted (h : w.Fills i j p c d) {k : Nat}
    (hk : k ∈ (w.inserted p.node c.node d.node).1.ids)
    (hstays : k ∈ (w.stays j).flatMap Node.ids) : k ∈ c.node.ids ∧ k ≠ i := by
  rcases h.ids_inserted.2 k hk with hkd | ⟨hge, -⟩
  · obtain ⟨t, ht, hkt⟩ := List.mem_flatMap.1 hstays
    exact ⟨h.mem_ids_old_of_mem ht hkd hkt, fun hki => h.not_mem_new (hki ▸ hkd)⟩
  · exact absurd (h.lt_next hstays) (Nat.not_lt.2 hge)

/-- What is left of the node has nothing of what is put in. -/
theorem not_mem_inserted (h : w.Fills i j p c d) {k : Nat}
    (hk : k ∈ (w.remains j p c d).ids) : k ∉ (w.inserted p.node c.node d.node).1.ids := by
  intro hkx
  have hold : k ∈ (w.stays j).flatMap Node.ids := List.mem_flatMap.2
    ⟨_, h.root_mem_stays, h.ids_old_subset (ids_remains_sublist.subset hk)⟩
  rw [remains, Node.ids_placed] at hk
  refine Node.not_mem_of_mem_ids_prune hk ?_ hkx
  rw [Node.prune_eq]
  exact fun hid => (h.mem_ids_old_of_inserted hkx hold).2
    (Option.some.inj (hid.symm.trans h.id_old))

/-- No identity is used twice afterwards. -/
theorem separate_replaced (h : w.Fills i j p c d) : (w.replaced i j p c d).Separate := by
  obtain ⟨x, hx⟩ : ∃ x, x = (w.inserted p.node c.node d.node).1 := ⟨_, rfl⟩
  obtain ⟨hxnd, hxfresh⟩ := h.ids_inserted
  have hnumbered := numbered_inserted w p.node c.node d.node
  have hxsome := hnumbered.isSome _ (List.mem_singleton.2 rfl)
  have hle := hnumbered.le_next
  obtain ⟨around, hbefore, hafter⟩ := h.exists_perm x
  rw [← hx] at hxnd hxfresh hxsome
  have hnd := hbefore.nodup_iff.1 (h.separate.nodup.sublist (flatMap_stays_sublist j))
  rw [List.nodup_append] at hnd
  have haround : ∀ k ∈ x.ids, k ∉ around := fun k hkx hk => by
    have hkt := hbefore.mem_iff.2 (List.mem_append_right c.node.ids hk)
    exact hnd.2.2 k (h.mem_ids_old_of_inserted (hx ▸ hkx) hkt).1 k hk rfl
  have hperm : ((w.replaced i j p c d).trees.flatMap Node.ids).Perm
      ((w.remains j p c d).ids ++ (x.ids ++ around)) := by
    refine List.Perm.trans ?_ (hafter.append_left _)
    rw [hx]
    refine List.perm_iff_count.2 fun a => ?_
    simp only [replaced, remains, trees, stays, List.map_cons, List.flatMap_cons,
      List.count_append]
    omega
  refine ⟨fun t ht => ?_, hperm.nodup_iff.2 ?_, fun k hk => ?_⟩
  · rcases mem_trees_replaced.1 ht with rfl | ⟨u, hu, rfl⟩
    · exact h.isSome_remains
    · exact h.isSome_substitute hu (hx ▸ hxsome)
  · refine List.nodup_append.2 ⟨h.nodup_old.sublist ids_remains_sublist,
      List.nodup_append.2 ⟨hxnd, hnd.2.1, ?_⟩, ?_⟩
    · rintro k hk l hl rfl
      exact haround k hk hl
    · rintro k hk l hl rfl
      rcases List.mem_append.1 hl with hl | hl
      · exact h.not_mem_inserted hk (hx ▸ hl)
      · exact hnd.2.2 k (ids_remains_sublist.subset hk) k hl rfl
  · show k < (w.inserted p.node c.node d.node).2
    rw [hperm.mem_iff, List.mem_append, List.mem_append] at hk
    have hold : ∀ k ∈ c.node.ids ++ around, k < (w.inserted p.node c.node d.node).2 :=
      fun k hk => (h.lt_next (hbefore.mem_iff.2 hk)).trans_le hle
    rcases hk with hk | hk | hk
    · exact hold k (List.mem_append_left _ (ids_remains_sublist.subset hk))
    · rcases hxfresh k hk with hkd | ⟨-, hklt⟩
      · exact (h.bounded_new k hkd).trans_le hle
      · exact hklt
    · exact hold k (List.mem_append_right _ hk)

end Fills

end Workspace

-- ==================================================================== frame

/-- The identities of the children of the parent. -/
def Cursor.siblings (c : Cursor) : List (Option Nat) :=
  match c.parent? with
  | some p => p.node.children.map (·.id)
  | none => []

/-- One identity for another. -/
def exchange (i k : Nat) (id : Option Nat) : Option Nat := if id = some i then some k else id

/-- A node is the same in another place, with `k` for `i` around it: what it
is by itself, its children, its parent and its siblings. -/
structure Keeps (i k : Nat) (a b : Cursor) : Prop where
  own : { b.node with children := [] } = { a.node with children := [] }
  children : b.node.children.map (·.id) = (a.node.children.map (·.id)).map (exchange i k)
  parent : b.parent?.map (·.node.id) = a.parent?.map (·.node.id)
  siblings : b.siblings = a.siblings.map (exchange i k)

theorem map_exchange_of_not_mem {i k : Nat} {ids : List (Option Nat)} (h : some i ∉ ids) :
    ids.map (exchange i k) = ids := by
  conv_rhs => rw [← List.map_id ids]
  refine List.map_congr_left fun o ho => ?_
  exact if_neg fun heq => h (by rwa [← heq])

namespace Node

variable {n x : Node} {i k : Nat}

theorem id_substitute (f : Node → Node → Node) : (n.substitute i f).id = n.id := by
  rw [substitute_eq]

theorem map_id_substitute (hx : x.id = some k) :
    (n.substitute i fun _ _ => x).children.map (·.id)
      = (n.children.map (·.id)).map (exchange i k) := by
  rw [substitute_eq, List.map_map, List.map_map]
  refine List.map_congr_left fun c _ => ?_
  show (substituteChild i (fun _ _ => x) n c).id = exchange i k c.id
  unfold substituteChild exchange
  by_cases hid : c.id = some i
  · rw [if_pos (by simpa using hid), if_pos hid, hx]
  · rw [if_neg (by simpa using hid), if_neg hid, id_substitute]

end Node

namespace Cursor

variable {a c d : Cursor} {x : Node} {i k : Nat}

/-- A substitution keeps what it does not replace. -/
theorem keeps_image (hx : x.id = some k) :
    Keeps i k a (a.image (Node.substitute i fun _ _ => x)) := by
  obtain ⟨n, above⟩ := a
  constructor
  case own =>
    show { n.substitute i (fun _ _ => x) with children := [] } = { n with children := [] }
    rw [Node.substitute_eq]
  case children => exact Node.map_id_substitute hx
  case parent =>
    cases above with
    | nil => rfl
    | cons pi up => exact congrArg some (Node.id_substitute _)
  case siblings =>
    cases above with
    | nil => rfl
    | cons pi up => exact Node.map_id_substitute hx

/-- What stands below two nodes with the same children stands in the same
places below both. -/
theorem exists_mem_walk_of_children (h : c.node.children = d.node.children)
    (ha : a ∈ c.walk) (hne : a ≠ c) : ∃ b ∈ d.walk, b.node = a.node
      ∧ ∃ q ∈ c.walk, ∃ r, a.parent? = some q ∧ b.parent? = some r
        ∧ r.node.children = q.node.children ∧ (r.node.id = q.node.id ∨ (q = c ∧ r = d)) := by
  induction c using Cursor.ind generalizing d with
  | h c ih =>
    obtain ⟨e, he, ha⟩ := (mem_walk_iff.1 ha).resolve_left hne
    obtain ⟨m, hm, habove⟩ := mem_children.1 he
    obtain ⟨f, hf, hnode⟩ : ∃ f ∈ d.children, f.node = e.node :=
      ⟨⟨e.node, (d.node, m) :: d.above⟩, mem_children.2 ⟨m, h ▸ hm, rfl⟩, rfl⟩
    by_cases hae : a = e
    · subst hae
      exact ⟨f, mem_walk_iff.2 (Or.inr ⟨f, hf, self_mem_walk f⟩), hnode, c, self_mem_walk c, d,
        parent?_of_mem_children he, parent?_of_mem_children hf, h.symm, Or.inr ⟨rfl, rfl⟩⟩
    · obtain ⟨b, hb, hbnode, q, hqw, r, hq, hr, hchildren, hid⟩ :=
        ih e he (show e.node.children = f.node.children by rw [hnode]) ha hae
      refine ⟨b, mem_walk_iff.2 (Or.inr ⟨f, hf, hb⟩), hbnode, q,
        mem_walk_iff.2 (Or.inr ⟨e, he, hqw⟩), r, hq, hr, hchildren, ?_⟩
      rcases hid with hid | ⟨rfl, rfl⟩
      · exact Or.inl hid
      · exact Or.inl (by rw [hnode])

end Cursor

namespace Workspace

variable {w : Workspace} {i j k m : Nat} {p c d a : Cursor} {x : Node}

namespace Fills

/-- The tree around the node, with the replacement in its place. -/
theorem plug_mem_trees (h : w.Fills i j p c d)
    (hx : (w.inserted p.node c.node d.node).1 = x) :
    plug c.above x ∈ (w.replaced i j p c d).trees := by
  rw [← h.substitute_root x, ← hx]
  exact mem_trees_replaced.2 (Or.inr ⟨_, h.root_mem_stays, rfl⟩)

/-- The replacement stands in the place of the node. -/
theorem find?_inserted (h : w.Fills i j p c d) (hx : (w.inserted p.node c.node d.node).1 = x)
    (hk : x.id = some k) : (w.replaced i j p c d).find? k = some (c.refill x) :=
  h.separate_replaced.find?_eq (h.plug_mem_trees hx) (refill_mem_walk h.placed x) hk

/-- What is left of the node is a tree. -/
theorem find?_remains (h : w.Fills i j p c d) :
    (w.replaced i j p c d).find? i = some (top (w.remains j p c d)) := by
  refine h.separate_replaced.find?_eq (mem_trees_replaced.2 (Or.inl rfl)) (self_mem_walk _) ?_
  show (w.remains j p c d).id = some i
  rw [remains, Node.placed, Node.prune_eq, Node.prune_eq]
  exact h.id_old

/-- The tree is the one it was around the place. -/
theorem find?_root (h : w.Fills i j p c d) (hx : (w.inserted p.node c.node d.node).1 = x)
    {r : Nat} (hr : c.root.node.id = some r) :
    (w.replaced i j p c d).find? r = some (top (plug c.above x)) := by
  refine h.separate_replaced.find?_eq (h.plug_mem_trees hx) (self_mem_walk _) ?_
  show (plug c.above x).id = some r
  rw [← h.substitute_root, Node.id_substitute, hr]

/-- The parent of the place keeps all but the child. -/
theorem parent_refill (h : w.Fills i j p c d) (x : Node) : ∃ q,
    (c.refill x).parent? = some q ∧ q.node = p.node.substitute i fun _ _ => x := by
  obtain ⟨q, n, hq, habove, hqnode⟩ := parent?_refill h.parent x
  have hplaced : PlacedIn c.node ((p.node, n) :: p.above) := habove ▸ h.placed
  have hroot : rootIn p.node p.above = c.root.node := by rw [root, habove]; rfl
  have hnd : p.node.ids.Nodup := by
    refine h.nodup_root.sublist ?_
    rw [← hroot]
    exact ids_sublist_rootIn hplaced.2
  refine ⟨q, hq, ?_⟩
  rw [hqnode, Node.substitute_of_child hnd hplaced.1 h.id_old]

/-- A node outside of the one replaced does not stand below it either. -/
theorem ancestors_ne (h : w.Fills i j p c d) {t : Node} (ht : t ∈ w.trees)
    (ha : a ∈ (top t).walk) (hac : a ∉ c.walk) : ∀ e ∈ a.ancestors, e.node.id ≠ some i := by
  intro e he hid
  obtain ⟨hplaced, hroot⟩ := mem_walk_top.1 ha
  obtain ⟨heplaced, heroot, hae⟩ := hplaced.of_mem_ancestors he
  have het : e ∈ (top t).walk := mem_walk_top.2 ⟨heplaced, heroot.trans hroot⟩
  have heq := h.separate.eq_of_id_eq ht h.root_mem.1 het h.root_mem.2 hid h.id_old
  exact hac (heq ▸ hae)

/-- Below the replacement everything is kept. -/
theorem exists_keeps_new (h : w.Fills i j p c d) (hm : a.node.id = some m) (ha : a ∈ d.walk)
    (had : a ≠ d) : ∃ b, (w.replaced i j p c d).find? m = some b ∧ Keeps i k a b := by
  obtain ⟨x, hx⟩ : ∃ x, (w.inserted p.node c.node d.node).1 = x := ⟨_, rfl⟩
  obtain ⟨r, l, hmem⟩ := Node.exists_mem_walk_fitted p.node c.node w.next h.isSome_new
  have hwithin : d.node.placed r l ∈ (c.refill x).node.walk := hx ▸ hmem
  rw [← map_node_walk] at hwithin
  obtain ⟨f, hf, hfnode⟩ := List.mem_map.1 hwithin
  have hchildren : d.node.children = f.node.children := by rw [hfnode]; rfl
  have hfid : f.node.id = d.node.id := by rw [hfnode]; rfl
  obtain ⟨b, hb, hnode, q, hqw, s, hq, hs, hsame, hid⟩ :=
    exists_mem_walk_of_children hchildren ha had
  -- the node is none of the children below the replacement
  have hnot : ∀ e ∈ d.walk, some i ∉ e.node.children.map (·.id) := by
    intro e he hi
    obtain ⟨n, hn, hni⟩ := List.mem_map.1 hi
    exact h.not_mem_new (Node.mem_ids.2
      ⟨n, Node.mem_walk_trans (node_mem_walk he)
        (Node.mem_walk_of_child hn (Node.self_mem_walk n)), hni⟩)
  have hplace : b ∈ (top (plug c.above x)).walk :=
    mem_walk_trans (mem_walk_trans (refill_mem_walk h.placed x) hf) hb
  refine ⟨b, h.separate_replaced.find?_eq (h.plug_mem_trees hx) hplace (hnode ▸ hm), ?_⟩
  constructor
  case own => rw [hnode]
  case children => rw [hnode, map_exchange_of_not_mem (hnot a ha)]
  case parent =>
    rw [hq, hs]
    rcases hid with hid | ⟨rfl, rfl⟩
    · exact congrArg some hid
    · exact congrArg some hfid
  case siblings =>
    have ha' : a.siblings = q.node.children.map (·.id) := by rw [siblings, hq]
    have hb' : b.siblings = s.node.children.map (·.id) := by rw [siblings, hs]
    rw [ha', hb', hsame, map_exchange_of_not_mem (hnot q hqw)]

/-- In a tree that stays everything is kept around the place. -/
theorem exists_keeps (h : w.Fills i j p c d)
    (hx : (w.inserted p.node c.node d.node).1.id = some k)
    (hm : w.find? m = some a) (hac : a ∉ c.walk) (had : a ≠ d) :
    ∃ b, (w.replaced i j p c d).find? m = some b ∧ Keeps i k a b := by
  obtain ⟨t, ht, ha, hid⟩ := find?_eq_some hm
  by_cases hstays : t ∈ w.stays j
  · refine ⟨_, h.separate_replaced.find?_eq (mem_trees_replaced.2 (Or.inr ⟨t, hstays, rfl⟩))
      (mem_walk_substitute ha ?_ (h.ancestors_ne ht ha hac)) ?_, keeps_image hx⟩
    · intro hi
      have heq := h.separate.eq_of_id_eq ht h.root_mem.1 ha h.root_mem.2 hi h.id_old
      exact hac (heq ▸ self_mem_walk c)
    · show (a.node.substitute i _).id = some m
      rw [Node.id_substitute, hid]
  · obtain ⟨u, hu, hd, hdj⟩ := find?_eq_some h.new
    have htloose : t ∈ w.loose :=
      (List.mem_cons.1 ht).resolve_left fun heq => hstays (heq ▸ List.mem_cons_self)
    have htid : t.id = some j := by
      by_contra hne
      refine hstays (List.mem_cons_of_mem _ (List.mem_filter.2 ⟨htloose, ?_⟩))
      rw [Bool.not_eq_true', Node.isIn_singleton]
      exact hne
    have htop : top t = d := h.separate.eq_of_id_eq ht hu (self_mem_walk _) hd htid hdj
    exact h.exists_keeps_new hid (htop ▸ ha) had

end Fills

/-- A node that is put in the place of another is printed there, in
parentheses if the place asks for them, and the text around it stays. It
has the lead, the role and the siblings of the other, which becomes a tree
of its own without a lead. Every node outside of the one replaced, except
for the replacement itself, keeps what it is by itself, its parent, and its
siblings and children, with the one exchanged for the other. -/
theorem replace_splices (hw : w.Separate) (hold : w.find? i = some c)
    (hp : c.parent? = some p) (hnew : w.find? j = some d) (hm : w.Movable c d) :
    ∃ w' k, w.replace i j = (w', .ok k) ∧ w'.Separate
      ∧ (∀ A B, c.Shows A B → c.root.node.render = A ++ (c.code ++ B)
        ∧ ∀ r, c.root.node.id = some r → ∃ t, w'.find? r = some (top t)
          ∧ (c.root.node = w.program → w'.program = t)
          ∧ t.render = A ++ (written p.node c.node d.node ++ B))
      ∧ (∃ e, w'.find? k = some e ∧ e.code = written p.node c.node d.node
        ∧ e.node.lead = c.node.lead ∧ e.node.role = c.node.role
        ∧ e.parent?.map (·.node.id) = some p.node.id
        ∧ e.siblings = c.siblings.map (exchange i k) ∧ j ∈ e.node.ids)
      ∧ (∃ o ∈ w'.loose, w'.find? i = some (top o) ∧ o.lead = [])
      ∧ ∀ m a, w.find? m = some a → a ∉ c.walk → a ≠ d →
        ∃ b, w'.find? m = some b ∧ Keeps i k a b := by
  have h : w.Fills i j p c d := ⟨hw, hold, hp, hnew, hm⟩
  obtain ⟨x, hx⟩ : ∃ x, (w.inserted p.node c.node d.node).1 = x := ⟨_, rfl⟩
  have hnumbered := numbered_inserted w p.node c.node d.node
  obtain ⟨k, hk⟩ : ∃ k, x.id = some k := Option.isSome_iff_exists.1
    (hnumbered.isSome x (by rw [hx]; exact List.mem_singleton.2 rfl) x (Node.self_mem_walk x))
  have hfitted : x = ((fitted p.node c.node d.node).number w.next).1 := hx.symm
  have hcode : x.code = written p.node c.node d.node := by
    rw [hfitted, Node.code_number, code_fitted]
  have hlead : x.lead = c.node.lead := by
    rw [hfitted, Node.lead_number]
    rfl
  have hrole : x.role = c.node.role := by
    rw [hfitted, Node.number_eq]
    rfl
  obtain ⟨q, hq, hqnode⟩ := h.parent_refill x
  have hmem : j ∈ x.ids := by
    obtain ⟨r, l, hmem⟩ := Node.exists_mem_walk_fitted p.node c.node w.next h.isSome_new
    exact Node.mem_ids.2 ⟨d.node.placed r l, hfitted ▸ hmem, h.id_new⟩
  refine ⟨w.replaced i j p c d, k, ?_, h.separate_replaced, fun A B hshows =>
    ⟨hshows.render_root, fun r hr => ⟨_, h.find?_root hx hr, ?_, ?_⟩⟩,
    ⟨_, h.find?_inserted hx hk, hcode, hlead, hrole, ?_, ?_, hmem⟩,
    ⟨_, List.mem_cons_self, h.find?_remains, rfl⟩,
    fun m a ha hac had => h.exists_keeps (hx ▸ hk) ha hac had⟩
  · rw [replace_eq h, hx, hk]
    rfl
  · intro hprogram
    show w.program.substitute i _ = _
    rw [hx, ← hprogram]
    exact h.substitute_root x
  · rw [hshows.render_plug hlead, hcode]
  · rw [hq, Option.map_some, hqnode, Node.id_substitute]
  · have hsiblings : (c.refill x).siblings = q.node.children.map (·.id) := by
      rw [siblings, hq]
    rw [hsiblings, hqnode, Node.map_id_substitute hk, siblings, hp]

/-- A call is replaced by its argument, in parentheses. -/
theorem replace_splices_argument : ∃ n i j c p d A B w' k t,
    parse (Text.ofString "x = f(a + b).c;") = .ok n
      ∧ (ofProgram n).Separate ∧ (ofProgram n).find? i = some c ∧ c.parent? = some p
      ∧ (ofProgram n).find? j = some d ∧ (ofProgram n).Movable c d ∧ c.Shows A B
      ∧ c.code = Text.ofString "f(a + b)" ∧ d.code = Text.ofString "a + b"
      ∧ (ofProgram n).replace i j = (w', .ok k) ∧ w'.program = t
      ∧ t.render = A ++ (Text.ofString "(a + b)" ++ B)
      ∧ t.render = Text.ofString "x = (a + b).c;" := by
  have h : holdsAt (Text.ofString "x = f(a + b).c;") [0, 0, 2, 0] (fun c =>
      c.node.id.any fun i => c.parent?.any fun p => (c.follow? [1, 1]).any fun d =>
        c.ancestors.all (·.node.text.isNone) && c.code == Text.ofString "f(a + b)"
          && d.code == Text.ofString "a + b"
          && written p.node c.node d.node == Text.ofString "(a + b)"
          && ((ofProgram c.root.node).replace i (d.node.id.getD 0)).1.render
            == Text.ofString "x = (a + b).c;") = true := by
    decide +kernel
  obtain ⟨n, c, hn, hc, ht⟩ := exists_of_holdsAt h
  have hw : (ofProgram n).Separate := (distinct_ofProgram hn).separate
  have hroot : c.root = top n := (mem_walk_top.1 hc).2
  have hprogram : n ∈ (ofProgram n).trees := List.mem_cons_self
  simp only [Option.any_eq_true, Bool.and_eq_true, beq_iff_eq, List.all_eq_true,
    Option.isNone_iff_eq_none] at ht
  obtain ⟨i, hi, p, hp, d, hd, ⟨⟨⟨hnone, hcode⟩, hdcode⟩, hwritten⟩, hrender⟩ := ht
  have hdc : d ∈ c.walk := mem_walk_of_follow? hd
  have hne : d ≠ c := by
    rintro rfl
    exact absurd (hcode.symm.trans hdcode) (by decide)
  have hdn : d ∈ (top n).walk := mem_walk_trans hc hdc
  obtain ⟨j, hj⟩ := Option.isSome_iff_exists.1 (hw.isSome n hprogram _ (node_mem_walk hdn))
  obtain ⟨r, hr⟩ := Option.isSome_iff_exists.1 (hw.isSome n hprogram n (Node.self_mem_walk n))
  have hold := hw.find?_eq hprogram hc hi
  have hnew := hw.find?_eq hprogram hdn hj
  obtain ⟨A, B, hshows⟩ := exists_shows (mem_walk_top.1 hc).1 hnone
  obtain ⟨w', k, hreplace, -, htext, -⟩ :=
    replace_splices hw hold hp hnew (.below hdc hne)
  obtain ⟨-, hafter⟩ := htext A B hshows
  obtain ⟨t, -, ht, hspliced⟩ := hafter r (by rw [hroot]; exact hr)
  have htop : w'.program = t := ht (by rw [hroot]; rfl)
  refine ⟨n, i, j, c, p, d, A, B, w', k, t, hn, hw, hold, hp, hnew, .below hdc hne, hshows,
    hcode, hdcode, hreplace, htop, hwritten ▸ hspliced, ?_⟩
  rw [hroot, hj, Option.getD_some] at hrender
  rw [← hrender, ← htop]
  exact congrArg (fun v => v.1.render) hreplace.symm

end Workspace

end Codemod
