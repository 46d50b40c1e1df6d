/-
Identities under change.

A tree is known by the list of its identities, all of them or those of
the nodes of some kind (`Node.listed`). A change in one place leaves what
is listed before and after that place alone: `Cursor.plug` puts a node in
a place, `listed_plug` says what the whole lists then, and replacing a
node by its identity is plugging (`substitute_eq_plug`).

Nodes that are new get numbers that were free, and apart from those the
numbered tree lists what it did (`Numbered`).
-/
import Mathlib.Data.List.Flatten
import Mathlib.Data.List.Nodup
import Mathlib.Data.List.Pairwise
import Codemod.Proofs.Tree.Position
import Codemod.Tree.Workspace

namespace Codemod

namespace Node

-- ==================================================== lists of identities

/-- The identity of the node itself, if its kind passes the test. -/
def ownListed (p : Kind → Bool → Bool) (n : Node) : List Nat :=
  if p n.kind n.named then n.id.toList else []

/-- The identities of the nodes whose kind passes a test, in source
order. The test is told whether the node is named. -/
def listed (p : Kind → Bool → Bool) (n : Node) : List Nat :=
  n.walk.flatMap (ownListed p)

theorem listed_eq (p : Kind → Bool → Bool) (n : Node) :
    n.listed p = n.ownListed p ++ n.children.flatMap (listed p) := by
  rw [listed, walk_eq, List.flatMap_cons, List.flatMap_assoc]
  rfl

theorem ids_eq_listed (n : Node) : n.ids = n.listed fun _ _ => true := by
  rw [ids, listed, List.filterMap_eq_flatMap_toList]
  rfl

theorem ids_eq (n : Node) : n.ids = n.id.toList ++ n.children.flatMap ids := by
  rw [ids_eq_listed, listed_eq]
  refine congrArg (n.id.toList ++ ·) ?_
  exact List.flatMap_congr fun c _ => (ids_eq_listed c).symm

theorem mem_ids {n : Node} {i : Nat} :
    i ∈ n.ids ↔ ∃ m ∈ n.walk, m.id = some i := by
  rw [ids, List.mem_filterMap]

theorem mem_listed {p : Kind → Bool → Bool} {n : Node} {i : Nat} :
    i ∈ n.listed p ↔ ∃ m ∈ n.walk, m.id = some i ∧ p m.kind m.named = true := by
  rw [listed, List.mem_flatMap]
  refine exists_congr fun m => and_congr_right fun _ => ?_
  rw [ownListed]
  split
  · next hp => simp [hp, Option.mem_toList]
  · next hp => simp [hp]

/-- Where no identity is used twice, a node is known by its own. -/
theorem eq_of_id_eq {n a b : Node} {i : Nat} (hnd : n.ids.Nodup)
    (ha : a ∈ n.walk) (hb : b ∈ n.walk) (hai : a.id = some i)
    (hbi : b.id = some i) : a = b := by
  rw [ids, List.Nodup, List.pairwise_filterMap] at hnd
  by_contra hne
  have hsymm : Std.Symm fun a b : Node =>
      ∀ i, a.id = some i → ∀ j, b.id = some j → i ≠ j :=
    ⟨fun a b h i hi j hj hij => h j hj i hi hij.symm⟩
  exact hnd.forall ha hb hne i hai i hbi rfl

/-- What is made of parts of a tree has its nodes in their kinds. -/
theorem kind_eq_of_taken {n new m m' : Node} {i : Nat} (hnd : n.ids.Nodup)
    (htaken : ∀ p, (new.listed p) ⊆ (n.listed p)) (hm : m ∈ n.walk)
    (hi : m.id = some i) (hm' : m' ∈ new.walk) (hi' : m'.id = some i) :
    m'.kind = m.kind ∧ m'.named = m.named := by
  have hmem : i ∈ new.listed fun k b => k == m'.kind && b == m'.named :=
    mem_listed.2 ⟨m', hm', hi', by simp⟩
  obtain ⟨d, hd, hdi, hp⟩ := mem_listed.1 (htaken _ hmem)
  rw [eq_of_id_eq hnd hd hm hdi hi] at hp
  simp only [Bool.and_eq_true, beq_iff_eq] at hp
  exact ⟨hp.1.symm, hp.2.symm⟩

/-- Listing the nodes of some kind leaves out some of all. -/
theorem listed_sublist_ids (p : Kind → Bool → Bool) (n : Node) :
    (n.listed p).Sublist n.ids := by
  rw [ids_eq_listed, listed, listed]
  induction n.walk with
  | nil => exact List.Sublist.refl _
  | cons m ms ih =>
      rw [List.flatMap_cons, List.flatMap_cons]
      refine List.Sublist.append ?_ ih
      unfold ownListed
      split
      · exact List.Sublist.refl _
      · exact List.nil_sublist _

theorem mem_ids_of_mem_listed {p : Kind → Bool → Bool} {n : Node} {i : Nat}
    (h : i ∈ n.listed p) : i ∈ n.ids :=
  (listed_sublist_ids p n).subset h

theorem listed_sublist_of_mem_children {n c : Node} (h : c ∈ n.children)
    (p : Kind → Bool → Bool) : (c.listed p).Sublist (n.listed p) := by
  obtain ⟨before, after, hcs⟩ := List.append_of_mem h
  rw [listed_eq p n, hcs, List.flatMap_append, List.flatMap_cons]
  refine List.Sublist.trans ?_ (List.sublist_append_right _ _)
  refine List.Sublist.trans ?_ (List.sublist_append_right _ _)
  exact List.sublist_append_left _ _

/-- A part of a tree lists some of what the tree lists. -/
theorem listed_sublist_of_mem_walk {n m : Node} (h : m ∈ n.walk)
    (p : Kind → Bool → Bool) : (m.listed p).Sublist (n.listed p) := by
  induction n using Node.ind with
  | h n ih =>
      rcases mem_walk_iff.1 h with rfl | ⟨c, hc, hm⟩
      · exact List.Sublist.refl _
      · exact (ih c hc hm).trans (listed_sublist_of_mem_children hc p)

theorem ids_sublist_of_mem_children {n c : Node} (h : c ∈ n.children) :
    c.ids.Sublist n.ids := by
  rw [ids_eq_listed, ids_eq_listed]
  exact listed_sublist_of_mem_children h _

theorem ids_sublist_of_mem_walk {n m : Node} (h : m ∈ n.walk) :
    m.ids.Sublist n.ids := by
  rw [ids_eq_listed, ids_eq_listed]
  exact listed_sublist_of_mem_walk h _

@[simp] theorem listed_placed (p : Kind → Bool → Bool) (n : Node)
    (r : Option Role) (l : Text) : (n.placed r l).listed p = n.listed p := by
  rw [listed_eq, listed_eq p n]
  rfl

/-- A node without an identity lists what its children list. -/
theorem listed_of_id_none {n : Node} (h : n.id = none)
    (p : Kind → Bool → Bool) : n.listed p = n.children.flatMap (listed p) := by
  rw [listed_eq, ownListed, h]
  cases p n.kind n.named <;> rfl

@[simp] theorem listed_token (p : Kind → Bool → Bool) (t : String) :
    (token t).listed p = [] :=
  listed_of_id_none rfl p

@[simp] theorem listed_leaf (p : Kind → Bool → Bool) (s : Symbol) (t : Text) :
    (leaf s t).listed p = [] :=
  listed_of_id_none rfl p

@[simp] theorem listed_branch (p : Kind → Bool → Bool) (s : Symbol)
    (cs : List Node) : (branch s cs).listed p = cs.flatMap (listed p) :=
  listed_of_id_none rfl p

-- =============================================================== copies

theorem copyAll_eq (cs : List Node) : copyAll cs = cs.map copy := by
  induction cs with
  | nil => rfl
  | cons c cs ih => rw [copyAll, ih, List.map_cons]

/-- A copy has no identities. -/
@[simp] theorem listed_copy (p : Kind → Bool → Bool) (n : Node) :
    n.copy.listed p = [] := by
  induction n using Node.ind with
  | h n ih =>
      obtain ⟨i, k, b, r, l, t, cs, z⟩ := n
      rw [listed_of_id_none (by rw [copy]) p, copy, copyAll_eq, List.flatMap_map,
        List.flatMap_eq_nil_iff]
      exact ih

-- ============================================================ numbering

theorem numberAll_cons (k : Nat) (c : Node) (cs : List Node) :
    numberAll k (c :: cs)
      = ((c.number k).1 :: (numberAll (c.number k).2 cs).1,
        (numberAll (c.number k).2 cs).2) := by
  rw [numberAll]

/-- The number that a node takes for itself. -/
def ownNumber (k : Nat) (n : Node) : Nat × Nat :=
  match n.id with
  | some i => (i, k)
  | none => (k, k + 1)

theorem number_eq (k : Nat) (n : Node) :
    n.number k = ({ n with
        id := some (n.ownNumber k).1
        children := (numberAll (n.ownNumber k).2 n.children).1 },
      (numberAll (n.ownNumber k).2 n.children).2) := by
  obtain ⟨i, s, b, r, l, t, cs, z⟩ := n
  cases i with
  | none => rw [number]; rfl
  | some i => rw [number]; rfl

/-- Every node has a number afterwards: its own, or one that was free. -/
structure Numbered (k : Nat) (old new : List Node) (next : Nat) : Prop where
  le_next : k ≤ next
  isSome : ∀ n ∈ new, ∀ m ∈ n.walk, m.id.isSome
  fresh : ∀ i ∈ new.flatMap ids, i ∈ old.flatMap ids ∨ (k ≤ i ∧ i < next)
  nodup : (old.flatMap ids).Nodup → (∀ i ∈ old.flatMap ids, i < k) →
    (new.flatMap ids).Nodup
  listed : ∀ (p : Kind → Bool → Bool) (b : Nat), b ≤ k →
    (∀ i ∈ old.flatMap ids, i < b) →
    (new.flatMap (Node.listed p)).filter (· < b) = old.flatMap (Node.listed p)

theorem Numbered.nil (k : Nat) : Numbered k [] [] k where
  le_next := Nat.le_refl k
  isSome := by simp
  fresh := by simp
  nodup := by simp
  listed := by simp

/-- Numbering goes on where it stopped. -/
theorem Numbered.cons {k mid next : Nat} {c c' : Node} {cs cs' : List Node}
    (h : Numbered k [c] [c'] mid) (hs : Numbered mid cs cs' next) :
    Numbered k (c :: cs) (c' :: cs') next where
  le_next := Nat.le_trans h.le_next hs.le_next
  isSome := by
    intro n hn
    rcases List.mem_cons.1 hn with rfl | hn
    · exact h.isSome _ (List.mem_singleton.2 rfl)
    · exact hs.isSome n hn
  fresh := by
    intro i hi
    rw [List.flatMap_cons, List.mem_append] at hi
    rw [List.flatMap_cons, List.mem_append]
    rcases hi with hi | hi
    · rcases h.fresh i (by simpa using hi) with hi | ⟨h1, h2⟩
      · exact Or.inl (Or.inl (by simpa using hi))
      · exact Or.inr ⟨h1, Nat.lt_of_lt_of_le h2 hs.le_next⟩
    · rcases hs.fresh i hi with hi | ⟨h1, h2⟩
      · exact Or.inl (Or.inr hi)
      · exact Or.inr ⟨Nat.le_trans h.le_next h1, h2⟩
  nodup := by
    intro hnd hlt
    rw [List.flatMap_cons, List.nodup_append] at hnd
    rw [List.flatMap_cons, List.nodup_append]
    obtain ⟨hc, hcs, hdisj⟩ := hnd
    have hltc : ∀ i ∈ c.ids, i < k := fun i hi =>
      hlt i (List.mem_flatMap.2 ⟨c, List.mem_cons_self, hi⟩)
    have hltcs : ∀ i ∈ cs.flatMap ids, i < k := fun i hi => by
      rw [List.flatMap_cons] at hlt
      exact hlt i (List.mem_append_right _ hi)
    refine ⟨?_, hs.nodup hcs fun i hi =>
      Nat.lt_of_lt_of_le (hltcs i hi) h.le_next, ?_⟩
    · simpa using h.nodup (by simpa using hc) (by simpa using hltc)
    · intro i hi j hj hij
      subst hij
      rcases h.fresh i (by simpa using hi) with hi' | ⟨hk, hmid⟩
      · rcases hs.fresh i hj with hj' | ⟨hmid', -⟩
        · exact hdisj i (by simpa using hi') i hj' rfl
        · have := hltc i (by simpa using hi')
          have := h.le_next
          omega
      · rcases hs.fresh i hj with hj' | ⟨hmid', -⟩
        · have := hltcs i hj'
          omega
        · omega
  listed := by
    intro p b hb hlt
    have hltc : ∀ i ∈ [c].flatMap ids, i < b := fun i hi =>
      hlt i (List.mem_flatMap.2 ⟨c, List.mem_cons_self, by simpa using hi⟩)
    have hltcs : ∀ i ∈ cs.flatMap ids, i < b := fun i hi => by
      rw [List.flatMap_cons] at hlt
      exact hlt i (List.mem_append_right _ hi)
    have h1 := h.listed p b hb hltc
    have h2 := hs.listed p b (Nat.le_trans hb h.le_next) hltcs
    simp only [List.flatMap_cons, List.flatMap_nil, List.append_nil] at h1
    rw [List.flatMap_cons, List.filter_append, h1, h2, List.flatMap_cons]

theorem ids_numbered (n : Node) (i : Nat) (cs : List Node) :
    ({ n with id := some i, children := cs } : Node).ids
      = i :: cs.flatMap ids := by
  rw [ids_eq]
  rfl

theorem isSome_numbered {n : Node} {i : Nat} {cs : List Node}
    (h : ∀ c ∈ cs, ∀ m ∈ c.walk, m.id.isSome) :
    ∀ c ∈ [({ n with id := some i, children := cs } : Node)], ∀ m ∈ c.walk,
      m.id.isSome := by
  intro c hc m hm
  obtain rfl := List.mem_singleton.1 hc
  rcases mem_walk_iff.1 hm with rfl | ⟨d, hd, hm⟩
  · rfl
  · exact h d hd m hm

/-- A node that has a number keeps it. -/
theorem Numbered.keeping {k next i : Nat} {n : Node} {cs : List Node}
    (hid : n.id = some i) (h : Numbered k n.children cs next) :
    Numbered k [n] [{ n with id := some i, children := cs }] next := by
  have hids : n.ids = i :: n.children.flatMap ids := by
    rw [ids_eq, hid]
    rfl
  constructor
  case le_next => exact h.le_next
  case isSome => exact isSome_numbered h.isSome
  case fresh =>
    intro j hj
    simp only [List.flatMap_singleton, ids_numbered, hids, List.mem_cons] at hj ⊢
    rcases hj with rfl | hj
    · exact Or.inl (Or.inl rfl)
    · exact (h.fresh j hj).imp_left Or.inr
  case nodup =>
    intro hnd hlt
    simp only [List.flatMap_singleton, ids_numbered, hids, List.nodup_cons]
      at hnd hlt ⊢
    have hlt' : ∀ j ∈ n.children.flatMap ids, j < k := fun j hj =>
      hlt j (List.mem_cons_of_mem _ hj)
    refine ⟨fun hmem => ?_, h.nodup hnd.2 hlt'⟩
    rcases h.fresh i hmem with hi | ⟨hk, -⟩
    · exact hnd.1 hi
    · have := hlt i List.mem_cons_self
      omega
  case listed =>
    intro p b hb hlt
    simp only [List.flatMap_singleton, hids] at hlt ⊢
    have hi : i < b := hlt i List.mem_cons_self
    have hlt' : ∀ j ∈ n.children.flatMap ids, j < b := fun j hj =>
      hlt j (List.mem_cons_of_mem _ hj)
    rw [listed_eq, List.filter_append, h.listed p b hb hlt', listed_eq p n]
    refine congrArg (· ++ _) ?_
    unfold ownListed
    rw [hid]
    cases p n.kind n.named <;> simp [hi]

/-- A node without a number takes the next one. -/
theorem Numbered.taking {k next : Nat} {n : Node} {cs : List Node}
    (hid : n.id = none) (h : Numbered (k + 1) n.children cs next) :
    Numbered k [n] [{ n with id := some k, children := cs }] next := by
  have hids : n.ids = n.children.flatMap ids := by
    rw [ids_eq, hid]
    rfl
  have hle := h.le_next
  constructor
  case le_next => omega
  case isSome => exact isSome_numbered h.isSome
  case fresh =>
    intro j hj
    simp only [List.flatMap_singleton, ids_numbered, hids, List.mem_cons] at hj ⊢
    rcases hj with rfl | hj
    · exact Or.inr ⟨Nat.le_refl j, by omega⟩
    · exact (h.fresh j hj).imp_right fun hj => by omega
  case nodup =>
    intro hnd hlt
    simp only [List.flatMap_singleton, ids_numbered, hids, List.nodup_cons]
      at hnd hlt ⊢
    refine ⟨fun hmem => ?_, h.nodup hnd fun j hj => Nat.lt_succ_of_lt (hlt j hj)⟩
    rcases h.fresh k hmem with hi | ⟨hk, -⟩
    · exact Nat.lt_irrefl k (hlt k hi)
    · omega
  case listed =>
    intro p b hb hlt
    simp only [List.flatMap_singleton, hids] at hlt ⊢
    rw [listed_eq, List.filter_append, h.listed p b (Nat.le_succ_of_le hb) hlt,
      listed_of_id_none hid]
    have hk : ¬ k < b := by omega
    unfold ownListed
    cases p n.kind n.named <;> simp [hk]

/-- A node is numbered before its children. -/
theorem Numbered.node {k next : Nat} {n : Node} {cs : List Node}
    (h : Numbered (n.ownNumber k).2 n.children cs next) :
    Numbered k [n] [{ n with id := some (n.ownNumber k).1, children := cs }]
      next := by
  cases hid : n.id with
  | some i =>
      rw [ownNumber, hid] at h ⊢
      exact Numbered.keeping hid h
  | none =>
      rw [ownNumber, hid] at h ⊢
      exact Numbered.taking hid h

mutual

theorem numbered_number (k : Nat) (n : Node) :
    Numbered k [n] [(n.number k).1] (n.number k).2 := by
  obtain ⟨i, s, b, r, l, t, cs, z⟩ := n
  rw [number_eq]
  exact Numbered.node (numbered_numberAll _ cs)

theorem numbered_numberAll (k : Nat) (cs : List Node) :
    Numbered k cs (numberAll k cs).1 (numberAll k cs).2 := by
  cases cs with
  | nil => exact Numbered.nil k
  | cons c cs =>
      rw [numberAll_cons]
      exact (numbered_number k c).cons (numbered_numberAll _ cs)

end

-- ========================================================= substitution

/-- What becomes of a child when a node is replaced. -/
def substituteChild (target : Nat) (f : Node → Node → Node)
    (parent c : Node) : Node :=
  if c.id == some target then f parent c else c.substitute target f

theorem substituteAll_eq (target : Nat) (f : Node → Node → Node)
    (parent : Node) (cs : List Node) :
    substituteAll target f parent cs
      = cs.map (substituteChild target f parent) := by
  induction cs with
  | nil => rfl
  | cons c cs ih =>
      rw [substituteAll, ih, List.map_cons, substituteChild]
      split <;> rfl

theorem substitute_eq (target : Nat) (f : Node → Node → Node) (n : Node) :
    n.substitute target f
      = { n with children := n.children.map (substituteChild target f n) } := by
  obtain ⟨i, k, b, r, l, t, cs, z⟩ := n
  rw [substitute, substituteAll_eq]

theorem with_children_eq {n : Node} {cs : List Node} (h : cs = n.children) :
    { n with children := cs } = n := by
  subst h
  obtain ⟨i, k, b, r, l, t, cs, z⟩ := n
  rfl

/-- A node that is not there cannot be replaced. -/
theorem substitute_of_not_mem {target : Nat} {f : Node → Node → Node} {n : Node}
    (h : target ∉ n.ids) : n.substitute target f = n := by
  induction n using Node.ind with
  | h n ih =>
      have hmap : n.children.map (substituteChild target f n) = n.children := by
        conv_rhs => rw [← List.map_id n.children]
        refine List.map_congr_left fun c hc => ?_
        have hc' : target ∉ c.ids := fun hmem =>
          h ((ids_sublist_of_mem_children hc).subset hmem)
        have hid : ¬ c.id = some target := fun hid =>
          hc' (mem_ids.2 ⟨c, self_mem_walk c, hid⟩)
        simp [substituteChild, hid, ih c hc hc']
      rw [substitute_eq, with_children_eq hmap]

theorem substituteChild_of_not_mem {target : Nat} {f : Node → Node → Node}
    {parent c : Node} (h : target ∉ c.ids) :
    substituteChild target f parent c = c := by
  have hid : ¬ c.id = some target := fun hid =>
    h (mem_ids.2 ⟨c, self_mem_walk c, hid⟩)
  simp [substituteChild, hid, substitute_of_not_mem h]

/-- A node does not have an identity that is used below it. -/
theorem id_ne_of_mem_child {n c : Node} {t : Nat} (hn : n.ids.Nodup)
    (hc : c ∈ n.children) (ht : t ∈ c.ids) : n.id ≠ some t := by
  intro hid
  rw [ids_eq, hid, Option.toList_some, List.singleton_append, List.nodup_cons] at hn
  exact hn.1 (List.mem_flatMap.2 ⟨c, hc, ht⟩)

/-- In different children there are different identities. -/
theorem not_mem_ids_of_ne {n a b : Node} {i j t : Nat} (hn : n.ids.Nodup)
    (ha : n.children[i]? = some a) (hb : n.children[j]? = some b) (hij : i ≠ j)
    (ht : t ∈ a.ids) : t ∉ b.ids := by
  rw [ids_eq, List.nodup_append] at hn
  have hpair := (List.nodup_flatMap.1 hn.2.1).2
  rw [List.pairwise_iff_getElem] at hpair
  obtain ⟨hi, rfl⟩ := List.getElem?_eq_some_iff.1 ha
  obtain ⟨hj, rfl⟩ := List.getElem?_eq_some_iff.1 hb
  intro ht'
  rcases Nat.lt_or_gt_of_ne hij with hlt | hlt
  · exact hpair i j hi hj hlt ht ht'
  · exact hpair j i hj hi hlt ht' ht

/-- Replacing below one child changes that child only. -/
theorem map_eq_set {α : Type} {l : List α} {g : α → α} {i : Nat} {a : α}
    (hi : l[i]? = some a) (h : ∀ j b, l[j]? = some b → j ≠ i → g b = b) :
    l.map g = l.set i (g a) := by
  apply List.ext_getElem?
  intro j
  rw [List.getElem?_map, List.getElem?_set]
  by_cases hij : i = j
  · subst hij
    rw [hi, if_pos rfl, if_pos (List.getElem?_eq_some_iff.1 hi).1]
    rfl
  · rw [if_neg hij]
    cases hj : l[j]? with
    | none => rfl
    | some b => rw [Option.map_some, h j b hj (Ne.symm hij)]

/-- Replacing a child. -/
theorem substitute_of_child {n c : Node} {i t : Nat} {f : Node → Node → Node}
    (hn : n.ids.Nodup) (hc : n.children[i]? = some c) (hid : c.id = some t) :
    n.substitute t f = { n with children := n.children.set i (f n c) } := by
  have hself : t ∈ c.ids := mem_ids.2 ⟨c, self_mem_walk c, hid⟩
  rw [substitute_eq]
  refine congrArg (fun cs => { n with children := cs }) ?_
  rw [map_eq_set hc]
  · rw [substituteChild, if_pos (by simpa using hid)]
  · intro j b hb hji
    exact substituteChild_of_not_mem (not_mem_ids_of_ne hn hc hb (Ne.symm hji) hself)

end Node

namespace Cursor

/-- The tree with a node in a given place. -/
def plug : List (Node × Nat) → Node → Node
  | [], n => n
  | (p, i) :: up, n => plug up { p with children := p.children.set i n }

/-- A node plugged in where it stands gives the whole tree. -/
theorem plug_eq_rootIn {above : List (Node × Nat)} {n : Node}
    (h : PlacedIn n above) : plug above n = rootIn n above := by
  induction above generalizing n with
  | nil => rfl
  | cons pi up ih =>
      obtain ⟨p, i⟩ := pi
      have hset : p.children.set i n = p.children := by
        obtain ⟨hi, hn⟩ := List.getElem?_eq_some_iff.1 h.1
        rw [← hn]
        exact List.set_getElem_self hi
      rw [plug, Node.with_children_eq hset, rootIn]
      exact ih h.2

/-- What the whole lists before and behind a place does not depend on
what stands there. -/
theorem listed_plug {above : List (Node × Nat)} {n : Node}
    (h : PlacedIn n above) (p : Kind → Bool → Bool) :
    ∃ before after, ∀ r : Node,
      (plug above r).listed p = before ++ (r.listed p ++ after) := by
  induction above generalizing n with
  | nil => exact ⟨[], [], fun r => by rw [plug, List.nil_append, List.append_nil]⟩
  | cons pi up ih =>
      obtain ⟨q, i⟩ := pi
      obtain ⟨before, after, hup⟩ := ih h.2
      obtain ⟨hi, -⟩ := List.getElem?_eq_some_iff.1 h.1
      refine ⟨before ++ (q.ownListed p
        ++ (q.children.take i).flatMap (Node.listed p)),
        (q.children.drop (i + 1)).flatMap (Node.listed p) ++ after, fun r => ?_⟩
      rw [plug, hup, Node.listed_eq]
      simp only [List.set_eq_take_append_cons_drop, hi, if_true,
        List.flatMap_append, List.flatMap_cons, List.append_assoc]
      rfl

/-- What is plugged in is a part of the whole. -/
theorem mem_walk_plug_self (above : List (Node × Nat)) {n new : Node}
    (h : PlacedIn n above) : new ∈ (plug above new).walk := by
  induction above generalizing n new with
  | nil => exact Node.self_mem_walk new
  | cons pi up ih =>
      obtain ⟨p, i⟩ := pi
      obtain ⟨hi, -⟩ := List.getElem?_eq_some_iff.1 h.1
      refine Node.mem_walk_trans (ih h.2) ?_
      exact Node.mem_walk_of_child (List.mem_set hi new) (Node.self_mem_walk new)

/-- A replacement below the top leaves the top its identity. -/
theorem id_plug {above : List (Node × Nat)} {n new : Node}
    (hid : new.id = n.id) : (plug above new).id = (rootIn n above).id := by
  induction above generalizing n new with
  | nil => exact hid
  | cons pi up ih =>
      obtain ⟨p, i⟩ := pi
      exact ih rfl

theorem kind_plug {above : List (Node × Nat)} {n new : Node}
    (hkind : new.kind = n.kind) : (plug above new).kind = (rootIn n above).kind := by
  induction above generalizing n new with
  | nil => exact hkind
  | cons pi up ih =>
      obtain ⟨p, i⟩ := pi
      exact ih rfl

theorem ids_sublist_rootIn {above : List (Node × Nat)} {n : Node}
    (h : PlacedIn n above) : n.ids.Sublist (rootIn n above).ids := by
  rw [← plug_eq_rootIn h, Node.ids_eq_listed, Node.ids_eq_listed]
  obtain ⟨before, after, hl⟩ := listed_plug h fun _ _ => true
  rw [hl]
  exact (List.sublist_append_left _ _).trans (List.sublist_append_right _ _)

/-- Once a replacement is known below a node, it is known above. -/
theorem substitute_rootIn {target : Nat} {f : Node → Node → Node}
    {above : List (Node × Nat)} {n new : Node} (h : PlacedIn n above)
    (hnd : (rootIn n above).ids.Nodup) (hmem : target ∈ n.ids)
    (hid : n.id ≠ some target) (hn : n.substitute target f = new) :
    (rootIn n above).substitute target f = plug above new := by
  induction above generalizing n new with
  | nil => exact hn
  | cons pi up ih =>
      obtain ⟨p, i⟩ := pi
      have hpnd : p.ids.Nodup := hnd.sublist (ids_sublist_rootIn h.2)
      have hp : p.substitute target f
          = { p with children := p.children.set i new } := by
        rw [Node.substitute_eq]
        refine congrArg (fun cs => { p with children := cs }) ?_
        rw [Node.map_eq_set h.1]
        · simp [Node.substituteChild, hid, hn]
        · intro j b hb hji
          exact Node.substituteChild_of_not_mem
            (Node.not_mem_ids_of_ne hpnd h.1 hb (Ne.symm hji) hmem)
      have hpmem : target ∈ p.ids :=
        (Node.ids_sublist_of_mem_children (List.mem_of_getElem? h.1)).subset hmem
      exact ih h.2 hnd hpmem (Node.id_ne_of_mem_child hpnd (List.mem_of_getElem? h.1) hmem) hp

/-- Replacing a node by its identity puts the replacement in its
place. -/
theorem substitute_eq_plug {target : Nat} {f : Node → Node → Node}
    {c p : Cursor} (hc : c.Placed) (hnd : c.root.node.ids.Nodup)
    (hid : c.node.id = some target) (hp : c.parent? = some p) :
    c.root.node.substitute target f = plug c.above (f p.node c.node) := by
  obtain ⟨n, above⟩ := c
  cases above with
  | nil => cases hp
  | cons pi up =>
      obtain ⟨q, i⟩ := pi
      obtain rfl : (⟨q, up⟩ : Cursor) = p := by simpa [parent?] using hp
      have hqnd : q.ids.Nodup := hnd.sublist (ids_sublist_rootIn hc.2)
      have hself : target ∈ n.ids :=
        Node.mem_ids.2 ⟨n, Node.self_mem_walk n, hid⟩
      have hq := Node.substitute_of_child (f := f) hqnd hc.1 hid
      have hqmem : target ∈ q.ids :=
        (Node.ids_sublist_of_mem_children (List.mem_of_getElem? hc.1)).subset hself
      have hqid : q.id ≠ some target :=
        Node.id_ne_of_mem_child hqnd (List.mem_of_getElem? hc.1) hself
      show (rootIn q up).substitute target f = plug up _
      exact substitute_rootIn hc.2 hnd hqmem hqid hq

end Cursor

end Codemod
