/-
Nodes in different arguments.

Two nodes are separated in a tree when a list of arguments holds them in
different arguments (`Node.Splits`). Where no identity is used twice this
says of which kind the innermost node around both is, so a replacement
somewhere else leaves it as it is (`splits_plug`), and one that holds
both decides it alone (`splits_of_plug`).
-/
import Codemod.Proofs.Tree.Splice

namespace Codemod

namespace Node

variable {i j k : Nat} {n : Node}

/-- The node is a list of arguments, with the one in one argument and the
other in another. -/
def SplitsHere (n : Node) (i j : Nat) : Prop :=
  n.is .arguments = true ∧ ∃ (a b : Nat) (x y : Node), a ≠ b
    ∧ n.children[a]? = some x ∧ n.children[b]? = some y
    ∧ i ∈ x.ids ∧ j ∈ y.ids

/-- Somewhere in the tree the two stand in different arguments. -/
def Splits (n : Node) (i j : Nat) : Prop := ∃ m ∈ n.walk, m.SplitsHere i j

theorem splits_iff :
    n.Splits i j ↔ n.SplitsHere i j ∨ ∃ c ∈ n.children, c.Splits i j := by
  constructor
  · intro h
    obtain ⟨m, hm, hs⟩ := h
    rcases mem_walk_iff.1 hm with rfl | ⟨c, hc, hmc⟩
    · exact Or.inl hs
    · exact Or.inr ⟨c, hc, m, hmc, hs⟩
  · intro h
    rcases h with hs | ⟨c, hc, m, hm, hs⟩
    · exact ⟨n, self_mem_walk n, hs⟩
    · exact ⟨m, mem_walk_of_child hc hm, hs⟩

theorem Splits.of_mem_walk {m : Node} (hm : m ∈ n.walk) (h : m.Splits i j) :
    n.Splits i j := by
  obtain ⟨d, hd, hs⟩ := h
  exact ⟨d, mem_walk_trans hm hd, hs⟩

theorem Splits.symm (h : n.Splits i j) : n.Splits j i := by
  obtain ⟨m, hm, hk, a, b, x, y, hab, hx, hy, hi, hj⟩ := h
  exact ⟨m, hm, hk, b, a, y, x, hab.symm, hy, hx, hj, hi⟩

theorem Splits.mem_ids (h : n.Splits i j) : i ∈ n.ids ∧ j ∈ n.ids := by
  obtain ⟨m, hm, -, a, b, x, y, -, hx, hy, hi, hj⟩ := h
  have hsub := (ids_sublist_of_mem_walk hm).subset
  exact ⟨hsub ((ids_sublist_of_mem_children (List.mem_of_getElem? hx)).subset hi),
    hsub ((ids_sublist_of_mem_children (List.mem_of_getElem? hy)).subset hj)⟩

@[simp] theorem splits_placed {r : Option Role} {l : Text} :
    (n.placed r l).Splits i j ↔ n.Splits i j := by
  rw [splits_iff, splits_iff]
  rfl

/-- A kind of node that is no list of arguments. -/
theorem splits_branch {s : Symbol} {cs : List Node} (hs : s ≠ .arguments) :
    (branch s cs).Splits i j ↔ ∃ c ∈ cs, c.Splits i j := by
  have hno : ¬ (branch s cs).SplitsHere i j := by
    intro h
    exact hs (by simpa [branch, is] using h.1)
  rw [splits_iff, or_iff_right hno]
  rfl

theorem not_splits_of_children_nil (h : n.children = []) : ¬ n.Splits i j := by
  rw [splits_iff, h]
  rintro (⟨-, a, b, x, y, -, hx, -⟩ | ⟨c, hc, -⟩)
  · rw [h] at hx
    cases hx
  · cases hc

@[simp] theorem not_splits_token (t : String) : ¬ (token t).Splits i j :=
  not_splits_of_children_nil rfl

@[simp] theorem not_splits_leaf (s : Symbol) (t : Text) :
    ¬ (leaf s t).Splits i j :=
  not_splits_of_children_nil rfl

-- ============================================================== numbering

theorem getElem?_numberAll {cs : List Node} {a : Nat} {y : Node}
    (h : (numberAll k cs).1[a]? = some y) :
    ∃ x k', cs[a]? = some x ∧ k ≤ k' ∧ y = (x.number k').1 := by
  induction cs generalizing k a with
  | nil => cases h
  | cons c cs ih =>
      rw [numberAll_cons] at h
      cases a with
      | zero => exact ⟨c, k, rfl, Nat.le_refl k, (Option.some.inj h).symm⟩
      | succ a =>
          obtain ⟨x, k', hx, hk, hy⟩ := ih h
          exact ⟨x, k', hx, Nat.le_trans (numbered_number k c).le_next hk, hy⟩

theorem mem_ids_of_number (hi : i < k) (h : i ∈ (n.number k).1.ids) :
    i ∈ n.ids := by
  rcases (numbered_number k n).fresh i (by simpa using h) with h | h
  · simpa using h
  · omega

/-- New numbers do not separate old ones. -/
theorem splits_of_number (hi : i < k) (hj : j < k)
    (h : (n.number k).1.Splits i j) : n.Splits i j := by
  induction n using Node.ind generalizing k with
  | h n ih =>
      have hle : k ≤ (n.ownNumber k).2 := by
        unfold ownNumber
        split <;> simp
      rw [number_eq, splits_iff] at h
      rw [splits_iff]
      rcases h with ⟨hk, a, b, x, y, hab, hx, hy, hix, hjy⟩ | ⟨c, hc, hcs⟩
      · obtain ⟨x', k', hx', hkx, rfl⟩ := getElem?_numberAll hx
        obtain ⟨y', k'', hy', hky, rfl⟩ := getElem?_numberAll hy
        exact Or.inl ⟨hk, a, b, x', y', hab, hx', hy',
          mem_ids_of_number (by omega) hix, mem_ids_of_number (by omega) hjy⟩
      · obtain ⟨a, ha⟩ := List.mem_iff_getElem?.1 hc
        obtain ⟨x, k', hx, hk, rfl⟩ := getElem?_numberAll ha
        have hxm := List.mem_of_getElem? hx
        exact Or.inr ⟨x, hxm, ih x hxm (by omega) (by omega) hcs⟩

end Node

-- ================================================================ in place

namespace Cursor

variable {i j : Nat}

/-- What is separated after a replacement was so before, unless what is
put in separates it. -/
theorem splits_plug {above : List (Node × Nat)} {n x : Node}
    (h : PlacedIn n above) (hi : i ∈ x.ids → i ∈ n.ids)
    (hj : j ∈ x.ids → j ∈ n.ids) (hs : (plug above x).Splits i j) :
    x.Splits i j ∨ (rootIn n above).Splits i j := by
  induction above generalizing n x with
  | nil => exact Or.inl hs
  | cons pi up ih =>
      obtain ⟨p, a⟩ := pi
      obtain ⟨ha, hn⟩ := List.getElem?_eq_some_iff.1 h.1
      have hpmem : p ∈ (rootIn p up).walk := by
        have hplaced : (⟨p, up⟩ : Cursor).Placed := h.2
        exact node_mem_walk hplaced.mem_walk_root
      -- a child with a given identity stands where one did before
      have hback : ∀ {k b : Nat} {y : Node}, (k ∈ x.ids → k ∈ n.ids) →
          (p.children.set a x)[b]? = some y → k ∈ y.ids →
          ∃ z, p.children[b]? = some z ∧ k ∈ z.ids := by
        intro k b y hk hy hky
        by_cases hab : a = b
        · subst hab
          rw [List.getElem?_set_self ha] at hy
          obtain rfl := Option.some.inj hy
          exact ⟨n, h.1, hk hky⟩
        · rw [List.getElem?_set_ne hab] at hy
          exact ⟨y, hy, hky⟩
      have hsub : ∀ k, (k ∈ x.ids → k ∈ n.ids) →
          k ∈ ({ p with children := p.children.set a x } : Node).ids →
          k ∈ p.ids := by
        intro k hk hmem
        rw [Node.ids_eq, List.mem_append, List.mem_flatMap] at hmem ⊢
        rcases hmem with hmem | ⟨y, hy, hky⟩
        · exact Or.inl hmem
        · obtain ⟨b, hb⟩ := List.mem_iff_getElem?.1 hy
          obtain ⟨z, hz, hkz⟩ := hback hk hb hky
          exact Or.inr ⟨z, List.mem_of_getElem? hz, hkz⟩
      rw [plug] at hs
      rcases ih h.2 (hsub i hi) (hsub j hj) hs with hs | hs
      · rcases Node.splits_iff.1 hs with
          ⟨hk, b, c, y, z, hbc, hy, hz, hiy, hjz⟩ | ⟨c, hc, hcs⟩
        · obtain ⟨y', hy', hiy'⟩ := hback hi hy hiy
          obtain ⟨z', hz', hjz'⟩ := hback hj hz hjz
          exact Or.inr ⟨p, hpmem, hk, b, c, y', z', hbc, hy', hz', hiy', hjz'⟩
        · rcases List.mem_or_eq_of_mem_set hc with hc | rfl
          · exact Or.inr (Node.Splits.of_mem_walk
              (Node.mem_walk_trans hpmem
                (Node.mem_walk_of_child hc (Node.self_mem_walk c))) hcs)
          · exact Or.inl hcs
      · exact Or.inr hs

/-- What holds both decides alone. -/
theorem splits_of_plug {above : List (Node × Nat)} {n x : Node}
    (h : PlacedIn n above) (hnd : (plug above x).ids.Nodup) (hi : i ∈ x.ids)
    (hj : j ∈ x.ids) (hs : (plug above x).Splits i j) : x.Splits i j := by
  induction above generalizing n x with
  | nil => exact hs
  | cons pi up ih =>
      obtain ⟨p, a⟩ := pi
      obtain ⟨ha, -⟩ := List.getElem?_eq_some_iff.1 h.1
      have hx : (p.children.set a x)[a]? = some x := List.getElem?_set_self ha
      have hmem : ∀ k ∈ x.ids,
          k ∈ ({ p with children := p.children.set a x } : Node).ids :=
        fun k hk => (Node.ids_sublist_of_mem_children
          (List.mem_of_getElem? hx)).subset hk
      have hpnd : ({ p with children := p.children.set a x } : Node).ids.Nodup :=
        hnd.sublist (Node.ids_sublist_of_mem_walk (mem_walk_plug_self up h.2))
      have huniq : ∀ {k b : Nat} {y : Node}, k ∈ x.ids →
          (p.children.set a x)[b]? = some y → k ∈ y.ids → b = a := by
        intro k b y hk hy hky
        by_contra hab
        exact Node.not_mem_ids_of_ne hpnd hx hy (Ne.symm hab) hk hky
      rcases Node.splits_iff.1 (ih h.2 hnd (hmem i hi) (hmem j hj) hs) with
        ⟨-, b, c, y, z, hbc, hy, hz, hiy, hjz⟩ | ⟨c, hc, hcs⟩
      · exact absurd ((huniq hi hy hiy).trans (huniq hj hz hjz).symm) hbc
      · obtain ⟨b, hb⟩ := List.mem_iff_getElem?.1 hc
        have hba := huniq hi hb hcs.mem_ids.1
        subst hba
        rw [hx] at hb
        obtain rfl := Option.some.inj hb
        exact hcs

end Cursor

-- =============================================================== replacing

namespace Build

variable {i j : Nat}

@[simp] theorem splits_parenthesized {e : Node} :
    (parenthesized e).Splits i j ↔ e.Splits i j := by
  rw [parenthesized, Node.splits_branch (by decide)]
  simp

theorem splits_operand {e : Node} {s : Symbol} {r : Role} :
    (operand e s r).Splits i j ↔ e.Splits i j := by
  unfold operand
  split <;> simp

/-- One argument alone is not separated from anything. -/
theorem splits_arguments_one {e : Node} :
    (arguments [e]).Splits i j ↔ e.Splits i j := by
  have hno : ¬ (arguments [e]).SplitsHere i j := by
    rintro ⟨-, a, b, x, y, hab, hx, hy, hix, hjy⟩
    have hone : ∀ {k a : Nat} {x : Node}, (arguments [e]).children[a]? = some x →
        k ∈ x.ids → a = 1 := by
      intro k a x hx hk
      match a, hx with
      | 0, hx =>
          obtain rfl := Option.some.inj hx
          cases hk
      | 1, _ => rfl
      | 2, hx =>
          obtain rfl := Option.some.inj hx
          cases hk
      | a + 3, hx => cases hx
    exact hab ((hone hx hix).trans (hone hy hjy).symm)
  rw [Node.splits_iff, or_iff_right hno]
  show (∃ c ∈ [Node.token "(", e.placed none [], Node.token ")"], c.Splits i j) ↔ _
  simp

theorem splits_methodCall_one {obj e : Node} {name : Text} :
    (methodCall obj name [e]).Splits i j ↔ obj.Splits i j ∨ e.Splits i j := by
  have hmember : (member obj name).Splits i j ↔ obj.Splits i j := by
    rw [member, memberNode, Node.splits_branch (by decide)]
    simp [inRole, propertyIdentifier, splits_operand]
  rw [methodCall, call, Node.splits_branch (by decide)]
  simp [inRole, splits_operand, hmember, splits_arguments_one]

theorem splits_negatedIf {e : Node} {b : Bool} :
    (negatedIf b e).Splits i j ↔ e.Splits i j := by
  cases b
  · rfl
  · show (unary "!" e).Splits i j ↔ e.Splits i j
    rw [unary, Node.splits_branch (by decide)]
    split <;> simp [inRole, spaced, splits_operand]

end Build

theorem Workspace.splits_fitted {parent old new : Node} {i j : Nat} :
    (Workspace.fitted parent old new).Splits i j ↔ new.Splits i j := by
  unfold Workspace.fitted
  simp only [Node.splits_placed]
  split <;> simp

end Codemod
