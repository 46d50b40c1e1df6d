/-
The trees of a workspace.

A node is known by its identity, so what is said of parents, ancestors
and attachment is said of what the look-up finds. A workspace is well
formed (`Workspace.WellFormed`) when the program in it is a tree in this
sense, and a node has the program for its top just when it is reached
from there.

What carries this is that no identity is used twice in all the trees
together (`Workspace.Distinct`). Replacing a node keeps it so: the parts
that have been moved are pruned from what is left behind
(`Distinct.splice`). Taking out a statement moves it to the other trees
(`Distinct.dropStatement`).
-/
import Mathlib.Data.List.Flatten
import Codemod.Edit.Move
import Codemod.Rule.Idiom
import Codemod.Proofs.Effect.Conservation
import Codemod.Proofs.Tree.Reach

namespace Codemod

open Cursor

/-- Nodes that all have identities, none of them used twice. -/
theorem Node.identified_of_ids {n : Node} (hsome : ∀ m ∈ n.walk, m.id.isSome)
    (hnd : n.ids.Nodup) : n.Identified := by
  refine ⟨hsome, ?_⟩
  have hids : n.walk.map (·.id) = n.ids.map some := by
    rw [ids, List.map_filterMap]
    conv_lhs => rw [← List.filterMap_eq_map]
    refine List.filterMap_congr fun m hm => ?_
    obtain ⟨i, hi⟩ := Option.isSome_iff_exists.1 (hsome m hm)
    simp [hi]
  rw [hids]
  exact hnd.map (Option.some_injective _)

namespace Workspace

/-- The program is a tree of nodes that are known by their identities. -/
structure WellFormed (w : Workspace) : Prop where
  /-- A node of the workspace is found by its identity where it stands. -/
  found : ∀ t ∈ w.trees, ∀ c ∈ (top t).walk,
    ∃ i, c.node.id = some i ∧ w.find? i = some c
  /-- A node of the program is reached once. -/
  once : (top w.program).walk.Pairwise fun c d => c.same d = false
  /-- The parent of a node is the node that lists it. -/
  parent : ∀ t ∈ w.trees, ∀ c ∈ (top t).walk, ∀ d ∈ c.children,
    ∃ i e, d.node.id = some i ∧ w.find? i = some e ∧ e.parent? = some c
  /-- No node is its own ancestor. -/
  acyclic : ∀ i c, w.find? i = some c → ∀ a ∈ c.ancestors, a.node.id ≠ some i
  /-- The nodes attached to the program are those reached from it. -/
  attached : ∀ i c, w.find? i = some c →
    (w.owns c = true ↔ ∃ d ∈ (top w.program).walk, d.node.id = some i)

/-- Every node has an identity, none is used twice in the trees of the
workspace, and those from the next one on are free. -/
structure Separate (w : Workspace) : Prop where
  isSome : ∀ t ∈ w.trees, ∀ m ∈ t.walk, m.id.isSome
  nodup : (w.trees.flatMap Node.ids).Nodup
  bounded : ∀ i ∈ w.trees.flatMap Node.ids, i < w.next

/-- The program is sound, and no identity is used twice in the trees of
the workspace. -/
structure Distinct (w : Workspace) : Prop where
  sound : w.Sound
  isSome : ∀ t ∈ w.trees, ∀ m ∈ t.walk, m.id.isSome
  nodup : (w.trees.flatMap Node.ids).Nodup
  bounded : ∀ i ∈ w.trees.flatMap Node.ids, i < w.next

variable {w : Workspace} {t u : Node} {c d : Cursor} {i : Nat}

theorem Distinct.separate (h : w.Distinct) : w.Separate := ⟨h.isSome, h.nodup, h.bounded⟩

theorem find?_eq_some (h : w.find? i = some c) :
    ∃ t ∈ w.trees, c ∈ (top t).walk ∧ c.node.id = some i := by
  obtain ⟨t, ht, hc⟩ := List.exists_of_findSome?_eq_some h
  exact ⟨t, ht, List.mem_of_find?_eq_some hc, by simpa using List.find?_some hc⟩

-- ================================================ what distinctness gives

namespace Separate

theorem identified (h : w.Separate) (ht : t ∈ w.trees) : t.Identified :=
  Node.identified_of_ids (h.isSome t ht) ((List.nodup_flatMap.1 h.nodup).1 t ht)

/-- An identity is used in one tree. -/
theorem eq_of_mem_ids (h : w.Separate) (ht : t ∈ w.trees) (hu : u ∈ w.trees)
    (hit : i ∈ t.ids) (hiu : i ∈ u.ids) : t = u := by
  have hsymm : Std.Symm (Function.onFun List.Disjoint Node.ids) :=
    ⟨fun _ _ h _ ht hu => h hu ht⟩
  by_contra hne
  exact (List.nodup_flatMap.1 h.nodup).2.forall ht hu hne hit hiu

theorem eq_of_id_eq (h : w.Separate) (ht : t ∈ w.trees) (hu : u ∈ w.trees)
    (hc : c ∈ (top t).walk) (hd : d ∈ (top u).walk) (hci : c.node.id = some i)
    (hdi : d.node.id = some i) : c = d := by
  have hit : i ∈ t.ids := Node.mem_ids.2 ⟨c.node, node_mem_walk hc, hci⟩
  have hiu : i ∈ u.ids := Node.mem_ids.2 ⟨d.node, node_mem_walk hd, hdi⟩
  obtain rfl := h.eq_of_mem_ids ht hu hit hiu
  exact eq_of_same (h.identified ht) hc hd (by simp [same, hci, hdi])

theorem find?_eq (h : w.Separate) (ht : t ∈ w.trees)
    (hc : c ∈ (top t).walk) (hi : c.node.id = some i) : w.find? i = some c := by
  have hsome : (w.find? i).isSome := by
    rw [find?, List.findSome?_isSome_iff]
    refine ⟨t, ht, ?_⟩
    rw [findId?, List.find?_isSome]
    exact ⟨c, hc, by simpa using hi⟩
  obtain ⟨d, hd⟩ := Option.isSome_iff_exists.1 hsome
  obtain ⟨u, hu, hdu, hdi⟩ := find?_eq_some hd
  rw [hd, h.eq_of_id_eq hu ht hdu hc hdi hi]

end Separate

namespace Distinct

theorem identified (h : w.Distinct) (ht : t ∈ w.trees) : t.Identified :=
  h.separate.identified ht

theorem eq_of_mem_ids (h : w.Distinct) (ht : t ∈ w.trees) (hu : u ∈ w.trees)
    (hit : i ∈ t.ids) (hiu : i ∈ u.ids) : t = u :=
  h.separate.eq_of_mem_ids ht hu hit hiu

theorem eq_of_id_eq (h : w.Distinct) (ht : t ∈ w.trees) (hu : u ∈ w.trees)
    (hc : c ∈ (top t).walk) (hd : d ∈ (top u).walk) (hci : c.node.id = some i)
    (hdi : d.node.id = some i) : c = d :=
  h.separate.eq_of_id_eq ht hu hc hd hci hdi

theorem find?_eq (h : w.Distinct) (ht : t ∈ w.trees)
    (hc : c ∈ (top t).walk) (hi : c.node.id = some i) : w.find? i = some c :=
  h.separate.find?_eq ht hc hi

end Distinct

theorem distinct_ofProgram {source : Text} {n : Node}
    (h : parse source = .ok n) : (ofProgram n).Distinct := by
  have hw := parse_sound h
  refine ⟨hw, ?_, ?_, ?_⟩
  · intro t ht
    obtain rfl := List.mem_singleton.1 ht
    exact hw.isSome
  · rw [show (ofProgram n).trees = [n] from rfl, List.flatMap_singleton]
    exact hw.nodup
  · intro i hi
    rw [show (ofProgram n).trees = [n] from rfl, List.flatMap_singleton] at hi
    exact hw.bounded i hi

end Workspace

namespace Workspace

variable {w : Workspace} {t : Node} {c p : Cursor} {new : Node} {i : Nat}

theorem Distinct.wellFormed (h : w.Distinct) : w.WellFormed := by
  have hprogram : w.program ∈ w.trees := List.mem_cons_self
  have hfound : ∀ t ∈ w.trees, ∀ c ∈ (top t).walk,
      ∃ i, c.node.id = some i ∧ w.find? i = some c := by
    intro t ht c hc
    obtain ⟨i, hi⟩ := Option.isSome_iff_exists.1
      (h.isSome t ht c.node (node_mem_walk hc))
    exact ⟨i, hi, h.find?_eq ht hc hi⟩
  constructor
  case found => exact hfound
  case once =>
    have hnodup := (h.identified hprogram).nodup
    rw [show w.program = (top w.program).node from rfl, ← map_node_walk,
      List.map_map, List.Nodup, List.pairwise_map] at hnodup
    exact hnodup.imp fun hne => by simpa [same] using hne
  case parent =>
    intro t ht c hc d hd
    obtain ⟨i, hi, hfind⟩ := hfound t ht d (mem_walk_of_mem_children hc hd)
    exact ⟨i, d, hi, hfind, parent?_of_mem_children hd⟩
  case acyclic =>
    intro i c hc a ha hai
    obtain ⟨t, ht, hct, hci⟩ := find?_eq_some hc
    obtain ⟨hplaced, hroot⟩ := mem_walk_top.1 hct
    obtain ⟨haplaced, haroot, -⟩ := hplaced.of_mem_ancestors ha
    have hat : a ∈ (top t).walk := mem_walk_top.2 ⟨haplaced, haroot.trans hroot⟩
    have hlt := Cursor.length_above_lt_of_mem_ancestors ha
    rw [h.eq_of_id_eq ht ht hat hct hai hci] at hlt
    exact Nat.lt_irrefl _ hlt
  case attached =>
    intro i c hc
    obtain ⟨t, ht, hct, hci⟩ := find?_eq_some hc
    have hroot : c.root = top t := (mem_walk_top.1 hct).2
    constructor
    · intro howns
      obtain ⟨j, hj⟩ := Option.isSome_iff_exists.1
        (h.isSome t ht t (Node.self_mem_walk t))
      have hsame : w.program.id = some j := by
        rw [owns, hroot, same, beq_iff_eq] at howns
        exact howns.symm.trans hj
      obtain rfl := h.eq_of_mem_ids ht hprogram
        (Node.mem_ids.2 ⟨t, Node.self_mem_walk t, hj⟩)
        (Node.mem_ids.2 ⟨w.program, Node.self_mem_walk _, hsame⟩)
      exact ⟨c, hct, hci⟩
    · rintro ⟨d, hd, hdi⟩
      obtain rfl := h.eq_of_id_eq ht hprogram hct hd hci hdi
      rw [owns, (mem_walk_top.1 hd).2]
      simp [same]

end Workspace

-- ============================================================== pruning

namespace Node

variable {gone : List Nat} {n : Node} {i : Nat}

theorem pruneAll_eq (gone : List Nat) (cs : List Node) :
    pruneAll gone cs = (cs.filter fun c => !c.isIn gone).map (prune gone) := by
  induction cs with
  | nil => rfl
  | cons c cs ih =>
      rw [pruneAll, ih, List.filter_cons]
      cases c.isIn gone <;> rfl

theorem prune_eq (gone : List Nat) (n : Node) :
    n.prune gone = { n with
      children := (n.children.filter fun c => !c.isIn gone).map (prune gone) } := by
  obtain ⟨i, k, b, r, l, t, cs, z⟩ := n
  rw [prune, pruneAll_eq]

/-- Where each of the trees kept lists less, all of them do. -/
theorem sublist_flatMap_filter {α β : Type} {f g : α → List β} (p : α → Bool)
    {l : List α} (h : ∀ a ∈ l, (f a).Sublist (g a)) :
    ((l.filter p).flatMap f).Sublist (l.flatMap g) := by
  induction l with
  | nil => exact List.Sublist.refl _
  | cons a l ih =>
      rw [List.forall_mem_cons] at h
      rw [List.filter_cons, List.flatMap_cons]
      split
      · rw [List.flatMap_cons]
        exact h.1.append (ih h.2)
      · exact (ih h.2).trans (List.sublist_append_right _ _)

theorem walk_ids_prune (gone : List Nat) (n : Node) :
    ((n.prune gone).walk.map (·.id)).Sublist (n.walk.map (·.id)) := by
  induction n using Node.ind with
  | h n ih =>
      rw [walk_eq, walk_eq n, prune_eq, List.map_cons, List.map_cons,
        List.map_flatMap, List.map_flatMap, List.flatMap_map]
      exact (sublist_flatMap_filter _ ih).cons_cons _

/-- Pruning leaves some of the nodes. -/
theorem ids_prune_sublist (gone : List Nat) (n : Node) :
    (n.prune gone).ids.Sublist n.ids := by
  have h := (walk_ids_prune gone n).filterMap (fun i => i)
  rwa [List.filterMap_map, List.filterMap_map] at h

@[simp] theorem walk_ids_placed (n : Node) (r : Option Role) (l : Text) :
    (n.placed r l).walk.map (·.id) = n.walk.map (·.id) := by
  rw [walk_eq, walk_eq n]
  rfl

@[simp] theorem ids_placed (n : Node) (r : Option Role) (l : Text) :
    (n.placed r l).ids = n.ids := by
  rw [ids_eq, ids_eq n]
  rfl

/-- Where the nodes have some of the identities, they have one each. -/
theorem isSome_of_subset {n' : Node} (h : ∀ m ∈ n.walk, m.id.isSome)
    (hsub : n'.walk.map (·.id) ⊆ n.walk.map (·.id)) :
    ∀ m ∈ n'.walk, m.id.isSome := by
  intro m hm
  obtain ⟨m', hm', hid⟩ := List.mem_map.1 (hsub (List.mem_map_of_mem hm))
  rw [← hid]
  exact h m' hm'

/-- Below the top none of the pruned nodes is left. -/
theorem not_mem_of_mem_ids_prune (h : i ∈ (n.prune gone).ids)
    (hi : n.id ≠ some i) : i ∉ gone := by
  induction n using Node.ind with
  | h n ih =>
      rw [ids_eq, prune_eq, List.mem_append, Option.mem_toList,
        List.flatMap_map] at h
      rcases h with h | h
      · exact absurd h hi
      · obtain ⟨c, hc, hic⟩ := List.mem_flatMap.1 h
        rw [List.mem_filter, Bool.not_eq_true'] at hc
        by_cases hid : c.id = some i
        · intro hgone
          simp [isIn, hid, hgone] at hc
        · exact ih c hc.1 hic hid

-- ------------------------------------------------------ taking a child out

variable {t : Nat} {cs : List Node}

/-- The child taken out is all that is missing. -/
theorem perm_dropHandingLead (hn : cs.find? (·.id == some t) = some n) :
    (cs.flatMap ids).Perm (n.ids ++ (dropHandingLead t cs).flatMap ids) := by
  induction cs with
  | nil => cases hn
  | cons c cs ih =>
      rw [List.find?_cons] at hn
      rw [dropHandingLead_cons]
      split at hn
      · next hid =>
          obtain rfl := Option.some.inj hn
          rw [if_pos hid]
          cases cs with
          | nil => exact List.Perm.refl _
          | cons d ds =>
              rw [List.flatMap_cons, List.flatMap_cons, List.flatMap_cons, ids_placed]
      · next hid =>
          rw [if_neg (by simp [hid]), List.flatMap_cons, List.flatMap_cons]
          refine ((ih hn).append_left _).trans ?_
          rw [← List.append_assoc, ← List.append_assoc]
          exact List.perm_append_comm.append_right _

theorem placed_self (n : Node) : n.placed n.role n.lead = n := by
  obtain ⟨i, k, b, r, l, t, cs, z⟩ := n
  rfl

theorem mem_dropHandingLead {d : Node} (h : d ∈ dropHandingLead t cs) :
    ∃ c ∈ cs, ∃ l, d = c.placed c.role l := by
  induction cs with
  | nil => cases h
  | cons c cs ih =>
      rw [dropHandingLead_cons] at h
      split at h
      · cases cs with
        | nil => cases h
        | cons e es =>
            rcases List.mem_cons.1 h with rfl | h
            · exact ⟨e, by simp, c.lead, rfl⟩
            · exact ⟨d, by simp [h], d.lead, (placed_self d).symm⟩
      · rcases List.mem_cons.1 h with rfl | h
        · exact ⟨d, List.mem_cons_self, d.lead, (placed_self d).symm⟩
        · obtain ⟨e, he, l, rfl⟩ := ih h
          exact ⟨e, List.mem_cons_of_mem _ he, l, rfl⟩

theorem formed_dropHandingLead {n : Node} (h : n.Formed)
    (hn : n.is .program = true) :
    ({ n with children := dropHandingLead t n.children } : Node).Formed := by
  have hk : n.kind = .symbol .program := is_iff.1 hn
  have hnil : n.children = [] → dropHandingLead t n.children = [] := by
    intro hnil
    rw [hnil, dropHandingLead]
  constructor
  case plain => exact fun ha => hnil (h.plain ha)
  case worded => exact fun ht => hnil (h.worded ht)
  case parts =>
    intro s roles hs hroles
    obtain rfl : Symbol.program = s := Kind.symbol.inj (hk.symm.trans hs)
    cases hroles
  case template =>
    intro ht
    rw [is_iff] at ht
    cases hk.symm.trans ht
  case inPlace =>
    intro d hd
    obtain ⟨c, hc, l, rfl⟩ := mem_dropHandingLead hd
    exact (h.inPlace c hc).placed

end Node

-- ==================================================== keeping it distinct

namespace Workspace.Distinct

variable {w : Workspace} {c p : Cursor} {new n : Node} {i : Nat}

/-- Replacing a node, but not by itself, leaves every identity in one
place. -/
theorem splice (h : w.Distinct) (hc : c ∈ (top w.program).walk)
    (hp : c.parent? = some p) (hi : c.node.id = some i)
    (htaken : new.ids.Subperm c.node.ids) (hself : i ∉ new.ids)
    (hsound : (w.splice p.node c.node new).Sound) :
    (w.splice p.node c.node new).Distinct := by
  have hw := h.sound
  have hsub := Node.ids_sublist_of_mem_walk (node_mem_walk hc)
  have hold : ∀ j ∈ c.node.ids, j < w.next := fun j hj => hw.bounded j (hsub.subset hj)
  have himem : i ∈ c.node.ids := Node.mem_ids.2 ⟨c.node, Node.self_mem_walk _, hi⟩
  have hfresh : ∀ j ∈ (w.inserted p.node c.node new).1.ids, j ∈ c.node.ids
      ∨ (w.next ≤ j ∧ j < (w.inserted p.node c.node new).2) := inserted_fresh htaken
  obtain ⟨-, hnext⟩ := program_splice hw hc hp new
  -- what is left behind has none of the nodes put in
  obtain ⟨remains, hremains⟩ : ∃ n : Node, n = (c.node.prune
      (w.inserted p.node c.node new).1.ids).placed c.node.role [] := ⟨_, rfl⟩
  have hids : remains.ids = (c.node.prune
      (w.inserted p.node c.node new).1.ids).ids := by
    rw [hremains, Node.ids_placed]
  have hremainsSub : remains.ids.Sublist c.node.ids := by
    rw [hids]
    exact Node.ids_prune_sublist _ _
  have hapart : ∀ j ∈ remains.ids, j ∉ (w.inserted p.node c.node new).1.ids := by
    intro j hj
    by_cases hji : j = i
    · subst hji
      intro hmem
      refine hself ?_
      rw [← ids_fitted p.node c.node]
      exact Node.mem_ids_of_number (hold j himem) hmem
    · rw [hids] at hj
      exact Node.not_mem_of_mem_ids_prune hj (by rw [hi]; simpa using Ne.symm hji)
  have hloose : w.loose.map (·.substitute i fun _ _ =>
      (w.inserted p.node c.node new).1) = w.loose := by
    refine (List.map_congr_left fun t ht => ?_).trans (List.map_id _)
    refine Node.substitute_of_not_mem fun hmem => ?_
    have hnd := h.nodup
    rw [trees, List.flatMap_cons, List.nodup_append] at hnd
    exact hnd.2.2 i (hsub.subset himem) i (List.mem_flatMap.2 ⟨t, ht, hmem⟩) rfl
  have htrees : (w.splice p.node c.node new).trees
      = (w.splice p.node c.node new).program :: remains :: w.loose := by
    rw [← hloose, hremains, trees, Workspace.splice, hi]
    rfl
  obtain ⟨before, after, hwhole, hwhole'⟩ := exists_ids_splice hw hc hp new
  -- the identities after the replacement, those of the place in the middle
  have hperm : ((w.splice p.node c.node new).trees.flatMap Node.ids).Perm (before
      ++ (((w.inserted p.node c.node new).1.ids ++ remains.ids)
        ++ (after ++ w.loose.flatMap Node.ids))) := by
    rw [htrees, List.flatMap_cons, List.flatMap_cons, hwhole']
    refine List.perm_iff_count.2 fun a => ?_
    simp only [List.count_append]
    omega
  have hold' : w.trees.flatMap Node.ids
      = before ++ (c.node.ids ++ (after ++ w.loose.flatMap Node.ids)) := by
    rw [trees, List.flatMap_cons, hwhole]
    simp only [List.append_assoc]
  have hmid : ∀ j ∈ (w.inserted p.node c.node new).1.ids ++ remains.ids,
      j ∈ c.node.ids ∨ (w.next ≤ j ∧ j < (w.inserted p.node c.node new).2) := by
    intro j hj
    rcases List.mem_append.1 hj with hj | hj
    · exact hfresh j hj
    · exact Or.inl (hremainsSub.subset hj)
  have hnd := h.nodup
  have hbounded := h.bounded
  rw [hold'] at hnd hbounded
  constructor
  case sound => exact hsound
  case isSome =>
    intro t ht
    rw [htrees, List.mem_cons, List.mem_cons] at ht
    rcases ht with rfl | rfl | ht
    · exact hsound.isSome
    · refine Node.isSome_of_subset (n := c.node) (fun m hm =>
        hw.isSome m (Node.mem_walk_trans (node_mem_walk hc) hm)) ?_
      rw [hremains, Node.walk_ids_placed]
      exact (Node.walk_ids_prune _ _).subset
    · exact h.isSome t (List.mem_cons_of_mem _ ht)
  case nodup =>
    refine hperm.nodup_iff.2 (nodup_exchanged hnd hbounded ?_ fun j hj =>
      (hmid j hj).imp_right And.left)
    refine List.nodup_append.2 ⟨nodup_inserted htaken (hw.nodup.sublist hsub) hold,
      (hw.nodup.sublist hsub).sublist hremainsSub, ?_⟩
    rintro j hj k hk rfl
    exact hapart j hk hj
  case bounded =>
    intro j hj
    have hle := (numbered_inserted w p.node c.node new).le_next
    rw [hperm.mem_iff, List.mem_append, List.mem_append] at hj
    rw [hnext]
    rcases hj with hj | hj | hj
    · exact (hbounded j (List.mem_append_left _ hj)).trans_le hle
    · rcases hmid j hj with hj | hj
      · exact (hold j hj).trans_le hle
      · exact hj.2
    · exact (hbounded j (List.mem_append_right _ (List.mem_append_right _ hj))).trans_le
        hle

/-- A statement taken out goes to the other trees. -/
theorem dropStatement (h : w.Distinct) (hp : w.program.is .program = true)
    (hn : w.program.children.find? (·.id == some i) = some n) :
    (Rules.dropStatement w n).Distinct := by
  have hw := h.sound
  have hid : n.id = some i := by simpa using List.find?_some hn
  have hnmem : n ∈ w.program.children := List.mem_of_find?_eq_some hn
  have hdrop : Rules.dropStatement w n = { w with
      program := { w.program with
        children := Node.dropHandingLead i w.program.children }
      loose := n :: w.loose } := by
    rw [Rules.dropStatement, hid]
  have hperm : ((Rules.dropStatement w n).trees.flatMap Node.ids).Perm
      (w.trees.flatMap Node.ids) := by
    have hcs := Node.perm_dropHandingLead hn
    rw [hdrop, trees, trees, List.flatMap_cons, List.flatMap_cons,
      List.flatMap_cons, Node.ids_eq, Node.ids_eq w.program]
    refine List.perm_iff_count.2 fun a => ?_
    have hcount := hcs.count_eq a
    simp only [List.count_append] at hcount ⊢
    omega
  have hsome : ∀ t ∈ (Rules.dropStatement w n).trees, ∀ m ∈ t.walk, m.id.isSome := by
    intro t ht
    rw [hdrop, trees, List.mem_cons, List.mem_cons] at ht
    rcases ht with rfl | rfl | ht
    · intro m hm
      rcases Node.mem_walk_iff.1 hm with rfl | ⟨d, hd, hm⟩
      · exact hw.isSome w.program (Node.self_mem_walk _)
      · obtain ⟨e, he, l, rfl⟩ := Node.mem_dropHandingLead hd
        refine Node.isSome_of_subset (n := e) (fun m hm =>
          hw.isSome m (Node.mem_walk_of_child he hm)) ?_ m hm
        rw [Node.walk_ids_placed]
        exact List.Subset.refl _
    · exact fun m hm => hw.isSome m (Node.mem_walk_of_child hnmem hm)
    · exact h.isSome t (List.mem_cons_of_mem _ ht)
  have hnodup := hperm.nodup_iff.2 h.nodup
  have hbounded : ∀ j ∈ (Rules.dropStatement w n).trees.flatMap Node.ids,
      j < (Rules.dropStatement w n).next := by
    intro j hj
    rw [hdrop]
    exact h.bounded j (hperm.mem_iff.1 hj)
  refine ⟨⟨?_, hsome _ List.mem_cons_self, ?_, fun j hj => hbounded j ?_⟩, hsome,
    hnodup, hbounded⟩
  · rw [hdrop, Node.shaped_iff]
    exact ⟨Node.formed_dropHandingLead hw.shaped.formed hp,
      Node.shaped_dropHandingLead fun c hc => hw.shaped.of_mem_children hc⟩
  · rw [trees, List.flatMap_cons] at hnodup
    exact hnodup.sublist (List.sublist_append_left _ _)
  · rw [trees, List.flatMap_cons]
    exact List.mem_append_left _ hj

end Workspace.Distinct

end Codemod
