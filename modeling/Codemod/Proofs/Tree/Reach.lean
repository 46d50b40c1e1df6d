/-
Places within reach of another.

A place is within reach of `s` when the way down to it passes no
barrier; the barrier itself can still be reached. Walks that stop at
certain nodes list what is within reach (`mem_walkBelowUntil`), and the
nearest ancestor that is a barrier is the one place that reaches down to
where the search began (`find?_ancestors_eq_some_iff`): looking outwards
and looking inwards meet here.
-/
import Codemod.Proofs.Tree.Position

namespace Codemod.Cursor

/-- `e` lies below `s`, and nothing strictly between them is a
barrier. -/
inductive Reaches (barrier : Cursor → Bool) (s : Cursor) : Cursor → Prop where
  | child {d : Cursor} : d ∈ s.children → Reaches barrier s d
  | deeper {d e : Cursor} : Reaches barrier s d → barrier d = false →
      e ∈ d.children → Reaches barrier s e

variable {barrier : Cursor → Bool} {s c d e : Cursor}

/-- The first step of the way down, instead of the last. -/
theorem Reaches.of_child (hd : d ∈ s.children) (hb : barrier d = false)
    (h : Reaches barrier d e) : Reaches barrier s e := by
  induction h with
  | child he => exact .deeper (.child hd) hb he
  | deeper _ hf he ih => exact .deeper ih hf he

theorem reaches_iff :
    Reaches barrier s e ↔
      ∃ d ∈ s.children, d = e ∨ (barrier d = false ∧ Reaches barrier d e) := by
  constructor
  · intro h
    induction h with
    | child hd => exact ⟨_, hd, Or.inl rfl⟩
    | deeper _ hf he ih =>
        obtain ⟨g, hg, rfl | ⟨hb, hr⟩⟩ := ih
        · exact ⟨_, hg, Or.inr ⟨hf, .child he⟩⟩
        · exact ⟨g, hg, Or.inr ⟨hb, .deeper hr hf he⟩⟩
  · rintro ⟨d, hd, rfl | ⟨hb, hr⟩⟩
    · exact .child hd
    · exact .of_child hd hb hr

theorem Reaches.trans (h : Reaches barrier s d) (hb : barrier d = false)
    (h' : Reaches barrier d e) : Reaches barrier s e := by
  induction h' with
  | child he => exact .deeper h hb he
  | deeper _ hf he ih => exact .deeper ih hf he

/-- Fewer barriers, more within reach. -/
theorem Reaches.mono {fewer : Cursor → Bool}
    (h : ∀ c, fewer c = true → barrier c = true) (hr : Reaches barrier s e) :
    Reaches fewer s e := by
  induction hr with
  | child hd => exact .child hd
  | deeper _ hf he ih =>
      refine .deeper ih ?_ he
      cases hfew : fewer _ with
      | false => rfl
      | true => rw [h _ hfew] at hf; cases hf

theorem Reaches.mem_walk (h : Reaches barrier s e) : e ∈ s.walk := by
  induction h with
  | child hd => exact mem_walk_of_mem_children (self_mem_walk s) hd
  | deeper _ _ he ih => exact mem_walk_of_mem_children ih he

-- ================================================ walks with barriers

mutual

theorem walkNodeUntil_eq (stop : Node → Bool) (above : List (Node × Nat))
    (n : Node) :
    walkNodeUntil stop above n
      = ⟨n, above⟩ :: if stop n then [] else walkBelowUntil stop ⟨n, above⟩ := by
  obtain ⟨i, k, b, r, l, t, cs, z⟩ := n
  rw [walkNodeUntil, walkBelowUntil]

theorem walkNodesUntil_eq (stop : Node → Bool) (parent : Node)
    (above : List (Node × Nat)) (i : Nat) (cs : List Node) :
    walkNodesUntil stop parent above i cs
      = (childrenFrom parent above i cs).flatMap fun d =>
          d :: if stop d.node then [] else d.walkBelowUntil stop := by
  cases cs with
  | nil => rfl
  | cons c cs =>
      rw [walkNodesUntil, childrenFrom, List.flatMap_cons,
        walkNodesUntil_eq stop parent above (i + 1) cs, walkNodeUntil_eq]

end

theorem walkBelowUntil_eq (stop : Node → Bool) (c : Cursor) :
    c.walkBelowUntil stop = c.children.flatMap fun d =>
      d :: if stop d.node then [] else d.walkBelowUntil stop := by
  rw [walkBelowUntil, walkNodesUntil_eq]
  rfl

/-- A walk that stops at certain nodes lists what they leave within
reach. -/
theorem mem_walkBelowUntil {stop : Node → Bool} :
    e ∈ s.walkBelowUntil stop ↔ Reaches (fun c => stop c.node) s e := by
  induction s using Cursor.ind with
  | h s ih =>
      rw [walkBelowUntil_eq, List.mem_flatMap, reaches_iff]
      refine exists_congr fun d => and_congr_right fun hd => ?_
      rw [List.mem_cons, ← ih d hd, eq_comm]
      cases stop d.node <;> simp

-- ====================================================== looking outwards

theorem Reaches.find?_ancestors (hs : barrier s = true)
    (hr : Reaches barrier s c) : c.ancestors.find? barrier = some s := by
  induction hr with
  | child hd => rw [ancestors_of_mem_children hd, List.find?_cons, hs]
  | deeper _ hf he ih =>
      rw [ancestors_of_mem_children he, List.find?_cons, hf]
      exact ih

theorem reaches_of_find?_ancestors (hc : c.Placed)
    (h : c.ancestors.find? barrier = some s) : Reaches barrier s c := by
  obtain ⟨n, above⟩ := c
  induction above generalizing n with
  | nil => simp [ancestors, ancestorsIn] at h
  | cons pi up ih =>
      obtain ⟨p, i⟩ := pi
      have hmem : (⟨n, (p, i) :: up⟩ : Cursor) ∈ (⟨p, up⟩ : Cursor).children :=
        mem_children.2 ⟨i, hc.1, rfl⟩
      rw [ancestors_of_mem_children hmem, List.find?_cons] at h
      cases hb : barrier ⟨p, up⟩ with
      | true =>
          obtain rfl : (⟨p, up⟩ : Cursor) = s := by simpa [hb] using h
          exact .child hmem
      | false =>
          rw [hb] at h
          exact .deeper (ih p hc.2 h) hb hmem

/-- The nearest ancestor with a property is the place with it that
reaches here past no other. -/
theorem find?_ancestors_eq_some_iff (hc : c.Placed) :
    c.ancestors.find? barrier = some s ↔
      barrier s = true ∧ Reaches barrier s c := by
  constructor
  · intro h
    exact ⟨List.find?_some h, reaches_of_find?_ancestors hc h⟩
  · rintro ⟨hs, hr⟩
    exact hr.find?_ancestors hs

/-- Ancestors lie ever higher. -/
theorem length_above_lt_of_mem_ancestors {a : Cursor} (ha : a ∈ c.ancestors) :
    a.above.length < c.above.length := by
  obtain ⟨n, above⟩ := c
  induction above generalizing n with
  | nil => simp [ancestors, ancestorsIn] at ha
  | cons pi up ih =>
      obtain ⟨p, i⟩ := pi
      rw [ancestors, ancestorsIn, List.mem_cons] at ha
      rcases ha with rfl | ha
      · simp
      · have := ih p ha
        simp only [List.length_cons] at this ⊢
        omega

/-- What is below a place has the place among what is above it. -/
theorem above_suffix (h : d ∈ c.walk) : c.above <:+ d.above := by
  induction c using Cursor.ind with
  | h c ih =>
      rcases mem_walk_iff.1 h with rfl | ⟨e, he, hd⟩
      · exact List.suffix_refl _
      · obtain ⟨i, -, ha⟩ := mem_children.1 he
        have hsuffix := ih e he hd
        rw [ha] at hsuffix
        exact (List.suffix_cons _ _).trans hsuffix

theorem length_above_lt_of_mem_child {a : Cursor} (ha : a ∈ c.children) (hd : d ∈ a.walk) :
    c.above.length < d.above.length := by
  obtain ⟨i, -, habove⟩ := mem_children.1 ha
  have hle := (above_suffix hd).length_le
  rw [habove, List.length_cons] at hle
  exact hle

/-- A place is below one child at most. -/
theorem eq_of_mem_children {a b : Cursor} (ha : a ∈ c.children) (hb : b ∈ c.children)
    (hda : d ∈ a.walk) (hdb : d ∈ b.walk) : a = b := by
  obtain ⟨i, hi, haa⟩ := mem_children.1 ha
  obtain ⟨j, hj, hba⟩ := mem_children.1 hb
  have hsuffix : a.above <:+ b.above :=
    List.suffix_of_suffix_length_le (above_suffix hda) (above_suffix hdb)
      (by rw [haa, hba]; exact Nat.le_refl _)
  have habove : a.above = b.above :=
    hsuffix.eq_of_length (by rw [haa, hba]; rfl)
  obtain rfl : i = j := by
    rw [haa, hba] at habove
    simpa using habove
  have hnode : a.node = b.node := Option.some.inj (hi.symm.trans hj)
  obtain ⟨n, above⟩ := a
  obtain ⟨m, above'⟩ := b
  obtain rfl : n = m := hnode
  obtain rfl : above = above' := habove
  rfl

theorem ancestorsIn_suffix {up above : List (Node × Nat)} (h : up <:+ above) :
    ancestorsIn up <:+ ancestorsIn above := by
  obtain ⟨before, rfl⟩ := h
  induction before with
  | nil => exact List.suffix_refl _
  | cons pi before ih => exact ih.trans (List.suffix_cons _ _)

/-- What is below a child has the parent among its ancestors. -/
theorem mem_ancestors_of_mem_child {a : Cursor} (ha : a ∈ c.children) (hd : d ∈ a.walk) :
    c ∈ d.ancestors := by
  refine (ancestorsIn_suffix (above_suffix hd)).subset ?_
  rw [show ancestorsIn a.above = c :: c.ancestors from ancestors_of_mem_children ha]
  exact List.mem_cons_self

/-- Outwards each ancestor lies higher than the one before. -/
theorem pairwise_ancestors (c : Cursor) :
    c.ancestors.Pairwise fun a b => b.above.length < a.above.length := by
  obtain ⟨n, above⟩ := c
  induction above generalizing n with
  | nil => exact .nil
  | cons pi up ih =>
      obtain ⟨p, i⟩ := pi
      exact .cons (fun b hb => length_above_lt_of_mem_ancestors (c := ⟨p, up⟩) hb) (ih p)

end Codemod.Cursor
