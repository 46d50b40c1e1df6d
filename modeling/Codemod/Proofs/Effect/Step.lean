/-
One replacement in a program.

A rule replaces one expression after the other (`Step`). Of the effects
that a replacement does not spend, it loses those of a template that is
left out (`Step.loses`) and keeps the others (`Step.keeps`), and it
changes the order of two only where one is in the value and the other in
the array of an `inArray` call (`Step.order_kept`).

Such a pair stands in different arguments before (`Step.splits_swaps`)
and no longer does afterwards (`Step.not_splits_after`), and no later
rewrite of a comparison separates it again (`Step.splits_back`).
-/
import Mathlib.Data.List.NodupEquivFin
import Mathlib.Tactic.Tauto
import Codemod.Proofs.Effect.Comparison

namespace Codemod

-- ================================================================== order

section Order

variable {i j : Nat} {l a b : List Nat}

theorem pair_sublist_append : [i, j].Sublist (a ++ b)
    ↔ [i, j].Sublist a ∨ [i, j].Sublist b ∨ (i ∈ a ∧ j ∈ b) := by
  rw [List.sublist_append_iff]
  constructor
  · rintro ⟨x, y, hxy, hx, hy⟩
    match x, hxy with
    | [], hxy => exact Or.inr (Or.inl (by rw [hxy]; exact hy))
    | [_], hxy =>
        obtain ⟨rfl, rfl⟩ := List.cons.inj hxy
        exact Or.inr (Or.inr ⟨List.singleton_sublist.1 hx,
          List.singleton_sublist.1 hy⟩)
    | c :: d :: x, hxy =>
        simp only [List.cons_append, List.cons.injEq, List.nil_eq,
          List.append_eq_nil_iff] at hxy
        obtain ⟨rfl, rfl, rfl, -⟩ := hxy
        exact Or.inl hx
  · rintro (h | h | ⟨hi, hj⟩)
    · exact ⟨[i, j], [], by simp, h, List.nil_sublist _⟩
    · exact ⟨[], [i, j], by simp, List.nil_sublist _, h⟩
    · exact ⟨[i], [j], rfl, List.singleton_sublist.2 hi,
        List.singleton_sublist.2 hj⟩

theorem pair_sublist_cons {k : Nat} : [i, j].Sublist (k :: l)
    ↔ [i, j].Sublist l ∨ (i = k ∧ j ∈ l) := by
  have := pair_sublist_append (a := [k]) (b := l) (i := i) (j := j)
  rw [List.singleton_append] at this
  rw [this]
  constructor
  · rintro (h | h | ⟨hi, hj⟩)
    · have := h.length_le
      simp at this
    · exact Or.inl h
    · exact Or.inr ⟨List.mem_singleton.1 hi, hj⟩
  · rintro (h | ⟨rfl, hj⟩)
    · exact Or.inr (Or.inl h)
    · exact Or.inr (Or.inr ⟨List.mem_singleton.2 rfl, hj⟩)

/-- Without repetitions, of two members one comes first. -/
theorem pair_sublist_or (hi : i ∈ l) (hj : j ∈ l) (hne : i ≠ j) :
    [i, j].Sublist l ∨ [j, i].Sublist l := by
  induction l with
  | nil => cases hi
  | cons k l ih =>
      rw [pair_sublist_cons, pair_sublist_cons]
      rcases List.mem_cons.1 hi with hik | hi'
      · rcases List.mem_cons.1 hj with hjk | hj'
        · exact absurd (hik.trans hjk.symm) hne
        · exact Or.inl (Or.inr ⟨hik, hj'⟩)
      · rcases List.mem_cons.1 hj with hjk | hj'
        · exact Or.inr (Or.inr ⟨hjk, hi'⟩)
        · rcases ih hi' hj' with h | h
          · exact Or.inl (Or.inl h)
          · exact Or.inr (Or.inl h)

theorem not_pair_sublist_swap (hnd : l.Nodup) (h : [i, j].Sublist l) :
    ¬ [j, i].Sublist l := by
  induction l with
  | nil => cases h
  | cons k l ih =>
      rw [List.nodup_cons] at hnd
      rw [pair_sublist_cons] at h ⊢
      rintro (h' | ⟨rfl, hi⟩)
      · rcases h with h | ⟨rfl, -⟩
        · exact ih hnd.2 h h'
        · exact hnd.1 (h'.subset (by simp))
      · rcases h with h | ⟨rfl, hj⟩
        · exact hnd.1 (h.subset (by simp))
        · exact hnd.1 hj

theorem pair_sublist_filter {p : Nat → Bool} (hi : p i = true)
    (hj : p j = true) : [i, j].Sublist (l.filter p) ↔ [i, j].Sublist l := by
  constructor
  · exact fun h => h.trans List.filter_sublist
  · intro h
    have := h.filter p
    simpa [hi, hj] using this

end Order

-- =============================================================== one step

/-- One replacement: an expression of the program as it stood, and what
took its place. -/
structure Rewrite where
  /-- The expression, where it stood. -/
  site : Cursor
  /-- What took its place. -/
  new : Node

/-- The value and the array of an `inArray` call hold the one and the
other effect. -/
def Cursor.Swaps (c : Cursor) (i j : Nat) : Prop :=
  ∃ value array, c.swapped? = some (value, array)
    ∧ i ∈ value.node.effects ∧ j ∈ array.node.effects

/-- A workspace, and a replacement of one of its expressions that keeps
effects. -/
structure Step (names : List Text) (k : Symbol) (w : Workspace) (r : Rewrite)
    (p : Cursor) : Prop where
  sound : w.Sound
  mem : r.site ∈ (Cursor.top w.program).walk
  parent : r.site.parent? = some p
  kind : r.site.is k = true
  symbol : k ∈ siteSymbols
  kept : Kept names r.site r.new

/-- What a replacement leaves behind. -/
def Workspace.after (w : Workspace) (r : Rewrite) (p : Cursor) : Workspace :=
  w.splice p.node r.site.node r.new

namespace Step

variable {names : List Text} {k : Symbol} {w : Workspace} {r : Rewrite}
  {p : Cursor} {i j : Nat}

theorem ids_taken (h : Step names k w r p) :
    r.new.ids.Subperm r.site.node.ids := by
  rw [Node.ids_eq_listed, Node.ids_eq_listed]
  exact h.kept.taken _

theorem new_lt (h : Step names k w r p) : ∀ i ∈ r.new.ids, i < w.next := by
  intro i hi
  exact h.sound.bounded i ((Node.ids_sublist_of_mem_walk
    (Cursor.node_mem_walk h.mem)).subset (h.ids_taken.subset hi))

theorem sound_after (h : Step names k w r p) :
    (w.after r p).Sound ∧ w.next ≤ (w.after r p).next := by
  refine h.sound.splice h.mem h.parent h.kept.notMute h.kind ?_ h.kept.shaped
    h.ids_taken
  have hplain : ∀ s ∈ siteSymbols, s ∉ [.templateSubstitution, .formalParameters] := by
    decide
  exact hplain k h.symbol

/-- Before and behind the expression the program lists what it did. -/
theorem listed_after (h : Step names k w r p) (q : Kind → Bool → Bool) :
    ∃ before after, w.program.listed q
        = before ++ (r.site.node.listed q ++ after)
      ∧ ((w.after r p).program.listed q).filter (· < w.next)
        = before ++ (r.new.listed q ++ after) :=
  Workspace.listed_splice h.sound h.mem h.parent h.new_lt q

/-- Nothing old appears. -/
theorem mem_of_mem_after (h : Step names k w r p) {q : Kind → Bool → Bool}
    (hi : i < w.next) (hmem : i ∈ (w.after r p).program.listed q) :
    i ∈ w.program.listed q := by
  obtain ⟨before, after, hw, hw'⟩ := h.listed_after q
  have : i ∈ ((w.after r p).program.listed q).filter (· < w.next) :=
    List.mem_filter.2 ⟨hmem, by simpa using hi⟩
  rw [hw', List.mem_append, List.mem_append] at this
  rw [hw, List.mem_append, List.mem_append]
  rcases this with h' | h' | h'
  · exact Or.inl h'
  · exact Or.inr (Or.inl ((h.kept.taken q).subset h'))
  · exact Or.inr (Or.inr h')

theorem nodup_effects (h : Step names k w r p) : w.program.effects.Nodup :=
  h.sound.nodup.sublist (Node.listed_sublist_ids _ _)

/-- The effects before and behind the expression, and in it. -/
theorem effects_after (h : Step names k w r p) :
    ∃ before after, w.program.effects
        = before ++ (r.site.node.effects ++ after)
      ∧ (w.after r p).program.effects.filter (· < w.next)
        = before ++ (r.new.effects ++ after) :=
  h.listed_after isEffectKind

theorem mem_effects_after {before after : List Nat}
    (hw' : (w.after r p).program.effects.filter (· < w.next)
      = before ++ (r.new.effects ++ after)) (hi : i < w.next) :
    i ∈ (w.after r p).program.effects
      ↔ i ∈ before ++ (r.new.effects ++ after) := by
  rw [← hw', List.mem_filter]
  simp [hi]

/-- An effect that is neither spent nor in a template is kept. -/
theorem keeps (h : Step names k w r p) (hi : i ∈ w.program.effects)
    (hspent : i ∉ r.site.spent names) (ht : i ∉ r.site.templateEffects) :
    i ∈ (w.after r p).program.effects := by
  obtain ⟨before, after, hw, hw'⟩ := h.effects_after
  have hlt := h.sound.bounded i (Node.mem_ids_of_mem_listed hi)
  rw [mem_effects_after hw' hlt, List.mem_append, List.mem_append]
  rw [hw, List.mem_append, List.mem_append] at hi
  rcases hi with hi | hi | hi
  · exact Or.inl hi
  · obtain ⟨gone, hperm, hgone, -⟩ := h.kept.accounted
    rcases List.mem_append.1 (hperm.mem_iff.1 hi) with hi | hi
    · rcases hgone i hi with hi | hi
      · exact absurd hi hspent
      · exact absurd hi ht
    · exact Or.inr (Or.inl hi)
  · exact Or.inr (Or.inr hi)

/-- The effects of a template are lost. -/
theorem loses (h : Step names k w r p) (hi : i ∈ r.site.templateEffects) :
    i ∉ (w.after r p).program.effects := by
  obtain ⟨before, after, hw, hw'⟩ := h.effects_after
  obtain ⟨gone, hperm, -, hgone⟩ := h.kept.accounted
  have hnd := h.nodup_effects
  have hsite : i ∈ r.site.node.effects :=
    hperm.mem_iff.2 (List.mem_append_left _ (hgone i hi))
  have hlt : i < w.next := by
    refine h.sound.bounded i (Node.mem_ids_of_mem_listed (p := isEffectKind) ?_)
    show i ∈ w.program.effects
    rw [hw]
    exact List.mem_append_right _ (List.mem_append_left _ hsite)
  rw [hw, List.nodup_append, List.nodup_append] at hnd
  rw [mem_effects_after hw' hlt, List.mem_append, List.mem_append]
  rintro (hmem | hmem | hmem)
  · exact hnd.2.2 i hmem i (List.mem_append_left _ hsite) rfl
  · have hsnd := hperm.nodup_iff.1 hnd.2.1.1
    rw [List.nodup_append] at hsnd
    exact hsnd.2.2 i (hgone i hi) i hmem rfl
  · exact hnd.2.1.2.2 i hsite i hmem rfl

-- ------------------------------------------------------ in which order

/-- Two effects that stand in some order afterwards stood so before,
unless they have been exchanged. -/
theorem order_back (h : Step names k w r p) (hi : i < w.next) (hj : j < w.next)
    (hno : ¬ r.site.Swaps j i)
    (hij : [i, j].Sublist (w.after r p).program.effects) :
    [i, j].Sublist w.program.effects := by
  obtain ⟨before, after, hw, hw'⟩ := h.effects_after
  have hij' : [i, j].Sublist (before ++ (r.new.effects ++ after)) := by
    rw [← hw']
    exact (pair_sublist_filter (by simpa using hi) (by simpa using hj)).2 hij
  have horder := h.kept.order
  unfold KeepsOrder at horder
  rw [hw]
  cases hs : r.site.swapped? with
  | none =>
      rw [hs] at horder
      refine hij'.trans ?_
      exact (List.Sublist.refl _).append (horder.append (List.Sublist.refl _))
  | some va =>
      obtain ⟨value, array⟩ := va
      rw [hs] at horder
      obtain ⟨hnew, hold, -⟩ := horder
      have hcases : [i, j].Sublist
          (before ++ ((value.node.effects ++ array.node.effects) ++ after)) := by
        rw [hnew] at hij'
        simp only [pair_sublist_append, List.mem_append] at hij' ⊢
        have hne : ¬ (i ∈ array.node.effects ∧ j ∈ value.node.effects) :=
          fun hij => hno ⟨value, array, hs, hij.2, hij.1⟩
        tauto
      exact hcases.trans
        ((List.Sublist.refl _).append (hold.append (List.Sublist.refl _)))

/-- Two effects that are kept stay in order, unless they are
exchanged. -/
theorem order_kept (h : Step names k w r p)
    (hij : [i, j].Sublist w.program.effects) (hno : ¬ r.site.Swaps i j)
    (hi : i ∈ (w.after r p).program.effects)
    (hj : j ∈ (w.after r p).program.effects) :
    [i, j].Sublist (w.after r p).program.effects := by
  have hlt : ∀ k ∈ [i, j], k < w.next := fun k hk =>
    h.sound.bounded k (Node.mem_ids_of_mem_listed (hij.subset hk))
  have hne : i ≠ j := by
    rintro rfl
    have := hij.nodup h.nodup_effects
    simp at this
  refine (pair_sublist_or hi hj hne).resolve_right fun hji => ?_
  exact not_pair_sublist_swap h.nodup_effects hij
    (h.order_back (hlt j (by simp)) (hlt i (by simp)) hno hji)

end Step

-- ============================================================ separation

/-- The members of a pair stand at different places of a list. -/
theorem exists_getElem?_of_pair {l : List Node} {a b : Node}
    (h : [a, b].Sublist l) :
    ∃ x y : Nat, x ≠ y ∧ l[x]? = some a ∧ l[y]? = some b := by
  obtain ⟨f, hf⟩ := List.sublist_iff_exists_orderEmbedding_getElem?_eq.1 h
  refine ⟨f 0, f 1, fun heq => ?_, (hf 0).symm, (hf 1).symm⟩
  have := f.injective heq
  omega

theorem Cursor.mem_walk_of_inner? {c d : Cursor} {r : Role}
    (h : c.inner? r = some d) : d ∈ c.walk := by
  obtain ⟨e, he, rfl⟩ := Cursor.inner?_eq_some.1 h
  exact Cursor.mem_walk_trans (Cursor.mem_walk_of_child? he)
    (Cursor.unparen_mem_walk e)

/-- The index call of a comparison stands on one of its sides. -/
theorem Cursor.indexCall?_spec {c call : Cursor}
    (h : c.indexCall? = some call) :
    c.is .binaryExpression = true ∧ call ∈ c.walk := by
  unfold Cursor.indexCall? at h
  split at h
  · cases h
  · next hk =>
      refine ⟨by simpa using hk, ?_⟩
      split at h
      · next call' hl =>
          obtain rfl := Option.some.inj h
          exact Cursor.mem_walk_of_inner? (Option.filter_eq_some_iff.1 hl).1
      · exact Cursor.mem_walk_of_inner? (Option.filter_eq_some_iff.1 h).1

/-- Two arguments of a call stand at different places of its list of
arguments. -/
theorem Cursor.arguments_pair {call value array : Cursor}
    (h : call.arguments = [value, array]) :
    ∃ args ∈ call.node.walk, args.is .arguments = true ∧ ∃ x y : Nat, x ≠ y
      ∧ args.children[x]? = some value.node
      ∧ args.children[y]? = some array.node := by
  unfold Cursor.arguments at h
  split at h
  · next args hargs =>
      split at h
      · next hk =>
          have hops : args.node.operands = [value.node, array.node] := by
            rw [← Cursor.map_node_operands, h]
            rfl
          have hsub : [value.node, array.node].Sublist args.node.children := by
            rw [← hops]
            exact List.filter_sublist
          exact ⟨args.node,
            Cursor.node_mem_walk (Cursor.mem_walk_of_child? hargs), hk,
            exists_getElem?_of_pair hsub⟩
      · cases h
  · cases h

/-- Value and array are different arguments of a call in a comparison. -/
theorem Cursor.swapped?_spec {c value array : Cursor}
    (h : c.swapped? = some (value, array)) :
    c.is .binaryExpression = true ∧ ∃ args ∈ c.node.walk,
      args.is .arguments = true ∧ ∃ x y : Nat, x ≠ y
        ∧ args.children[x]? = some value.node
        ∧ args.children[y]? = some array.node := by
  unfold Cursor.swapped? at h
  split at h
  · cases h
  · next call hcall =>
      obtain ⟨hk, hmem⟩ := Cursor.indexCall?_spec hcall
      refine ⟨hk, ?_⟩
      split at h
      · split at h
        · next v a hargs =>
            obtain ⟨rfl, rfl⟩ := Prod.mk.inj (Option.some.inj h)
            obtain ⟨args, hwalk, hrest⟩ := Cursor.arguments_pair hargs
            exact ⟨args, Node.mem_walk_trans (Cursor.node_mem_walk hmem) hwalk,
              hrest⟩
        · cases h
      · cases h

namespace Step

variable {names : List Text} {k : Symbol} {w : Workspace} {r : Rewrite}
  {p : Cursor} {i j : Nat}

theorem kind_of_swaps (h : Step names k w r p) (hs : r.site.Swaps i j) :
    k = .binaryExpression := by
  obtain ⟨value, array, hs, -⟩ := hs
  have h1 : r.site.node.kind = .symbol k := by
    simpa [Cursor.is, Node.is] using h.kind
  have h2 : r.site.node.kind = .symbol .binaryExpression := by
    simpa [Cursor.is, Node.is] using (Cursor.swapped?_spec hs).1
  exact Kind.symbol.inj (h1.symm.trans h2)

/-- What is exchanged stands in one order before and in the other
afterwards. -/
theorem order_swaps (h : Step names k w r p) (hs : r.site.Swaps i j) :
    [i, j].Sublist w.program.effects
      ∧ [j, i].Sublist (w.after r p).program.effects := by
  obtain ⟨value, array, hs, hi, hj⟩ := hs
  obtain ⟨before, after, hw, hw'⟩ := h.effects_after
  have horder := h.kept.order
  rw [KeepsOrder, hs] at horder
  obtain ⟨hnew, hold, -⟩ := horder
  constructor
  · rw [hw, pair_sublist_append, pair_sublist_append]
    have hij : [i, j].Sublist (value.node.effects ++ array.node.effects) :=
      pair_sublist_append.2 (Or.inr (Or.inr ⟨hi, hj⟩))
    exact Or.inr (Or.inl (Or.inl (hij.trans hold)))
  · refine List.Sublist.trans ?_ (List.filter_sublist (p := (· < w.next)))
    rw [hw', hnew, pair_sublist_append, pair_sublist_append]
    exact Or.inr (Or.inl (Or.inl
      (pair_sublist_append.2 (Or.inr (Or.inr ⟨hj, hi⟩)))))

/-- What is exchanged stands in different arguments. -/
theorem splits_swaps (h : Step names k w r p) (hs : r.site.Swaps i j) :
    w.program.Splits i j := by
  obtain ⟨value, array, hs, hi, hj⟩ := hs
  obtain ⟨-, args, hargs, hk, x, y, hxy, hx, hy⟩ := Cursor.swapped?_spec hs
  refine ⟨args, Node.mem_walk_trans (Cursor.node_mem_walk h.mem) hargs, hk, x, y,
    value.node, array.node, hxy, hx, hy, ?_, ?_⟩
  · exact Node.mem_ids_of_mem_listed hi
  · exact Node.mem_ids_of_mem_listed hj

theorem program_after (h : Step names k w r p) :
    (w.after r p).program = Cursor.plug r.site.above
      (w.inserted p.node r.site.node r.new).1 :=
  (Workspace.program_splice h.sound h.mem h.parent r.new).1

/-- What separates two old nodes in the replacement did so in the
rewrite. -/
theorem splits_of_inserted (hi : i < w.next) (hj : j < w.next)
    (hs : (w.inserted p.node r.site.node r.new).1.Splits i j) :
    r.new.Splits i j :=
  Workspace.splits_fitted.1 (Node.splits_of_number hi hj hs)

/-- What has been exchanged no longer stands in different arguments. -/
theorem not_splits_after (h : Step names k w r p) (hs : r.site.Swaps i j) :
    ¬ (w.after r p).program.Splits i j := by
  intro hsplit
  obtain ⟨hbefore, -⟩ := h.order_swaps hs
  have hlt : ∀ k ∈ [i, j], k < w.next := fun k hk =>
    h.sound.bounded k (Node.mem_ids_of_mem_listed (hbefore.subset hk))
  obtain ⟨value, array, hs, hi, hj⟩ := hs
  have horder := h.kept.order
  rw [KeepsOrder, hs] at horder
  obtain ⟨hnew, -, hsteady⟩ := horder
  have hins : ∀ k ∈ r.new.effects,
      k ∈ (w.inserted p.node r.site.node r.new).1.ids := by
    intro k hk
    rw [Node.effects, ← Workspace.listed_inserted h.new_lt] at hk
    exact Node.mem_ids_of_mem_listed (List.mem_of_mem_filter hk)
  rw [hnew] at hins
  have hnd := h.sound_after.1.nodup
  rw [h.program_after] at hnd hsplit
  have hsplit' := Cursor.splits_of_plug (Cursor.mem_walk_top.1 h.mem).1 hnd
    (hins i (List.mem_append_right _ hi)) (hins j (List.mem_append_left _ hj))
    hsplit
  obtain ⟨-, args, hargs, -, x, y, hxy, hx, hy⟩ := Cursor.swapped?_spec hs
  have hargs' : args.ids.Nodup := h.sound.nodup.sublist
    (Node.ids_sublist_of_mem_walk
      (Node.mem_walk_trans (Cursor.node_mem_walk h.mem) hargs))
  rcases hsteady i j (splits_of_inserted (hlt i (by simp)) (hlt j (by simp))
    hsplit') with harray | hvalue
  · exact Node.not_mem_ids_of_ne hargs' hx hy hxy
      (Node.mem_ids_of_mem_listed hi) harray.mem_ids.1
  · exact Node.not_mem_ids_of_ne hargs' hy hx (Ne.symm hxy)
      (Node.mem_ids_of_mem_listed hj) hvalue.mem_ids.2

/-- The rewrite of a comparison separates nothing. -/
theorem splits_back (h : Step names .binaryExpression w r p) (hi : i < w.next)
    (hj : j < w.next) (hs : (w.after r p).program.Splits i j) :
    w.program.Splits i j := by
  have hold : ∀ k < w.next,
      k ∈ (w.inserted p.node r.site.node r.new).1.ids → k ∈ r.site.node.ids := by
    intro k hk hmem
    have := Node.mem_ids_of_number hk hmem
    rw [Node.ids_eq_listed, Workspace.listed_fitted, ← Node.ids_eq_listed] at this
    exact h.ids_taken.subset this
  rw [h.program_after] at hs
  rcases Cursor.splits_plug (Cursor.mem_walk_top.1 h.mem).1 (hold i hi) (hold j hj)
    hs with hs | hs
  · exact (h.kept.steady h.kind i j (splits_of_inserted hi hj hs)).of_mem_walk
      (Cursor.node_mem_walk h.mem)
  · rwa [Workspace.rootIn_eq h.mem] at hs

end Step

end Codemod
