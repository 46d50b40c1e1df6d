/-
The order of the places in a tree.

A place is told by its path: it is below another exactly if its path goes
on from the other's (`mem_walk_iff_begins`), and the walk lists places in
the lexicographic order of their paths (`walk_sorted`). What is left are
two places neither of which is below the other: their paths part
(`Parted`), and one precedes the other if it takes the smaller index there
(`precedes_iff_parted`). What a node prints is printed between what the
nodes on either side print (`Shows.below`), so the texts of parted places
stand in the order of the places (`Shows.ends_before`).

Main statement: `precedes_is_source_order`.
-/
import Mathlib.Data.List.Lex
import Codemod.Proofs.Tree.Context
import Codemod.Proofs.Tree.Reach

namespace Codemod

variable {p q r : List Nat}

-- ================================================================== paths

theorem pathBefore_iff_lt : Cursor.pathBefore p q = true ↔ p < q := by
  fun_induction Cursor.pathBefore p q with
  | case1 => simp
  | case2 j js => simp
  | case3 i is => simp
  | case4 i is j js ih =>
      rw [Bool.or_eq_true, decide_eq_true_iff, Bool.and_eq_true, beq_iff_eq, ih,
        List.cons_lt_cons_iff]

/-- Two paths part: where they first differ, the first has the smaller
index. -/
def Parted (p q : List Nat) : Prop :=
  ∃ u i v j w, p = u ++ i :: v ∧ q = u ++ j :: w ∧ i < j

/-- Paths part if the first is less than the second and does not lead up
to it. -/
theorem parted_iff : Parted p q ↔ ¬ p <+: q ∧ p < q := by
  constructor
  · rintro ⟨u, i, v, j, w, rfl, rfl, hij⟩
    refine ⟨fun h => ?_, List.append_left_lt (List.cons_lt_cons_iff.2 (Or.inl hij))⟩
    rw [List.prefix_append_right_inj, List.cons_prefix_cons] at h
    exact hij.ne h.1
  · intro h
    induction p generalizing q with
    | nil => exact absurd List.nil_prefix h.1
    | cons i p ih =>
        cases q with
        | nil => exact absurd h.2 (List.not_lt_nil _)
        | cons j q =>
            rcases List.cons_lt_cons_iff.1 h.2 with hij | ⟨rfl, hlt⟩
            · exact ⟨[], i, p, j, q, rfl, rfl, hij⟩
            · obtain ⟨u, k, v, l, w, rfl, rfl, hkl⟩ :=
                ih ⟨fun hp => h.1 (List.cons_prefix_cons.2 ⟨rfl, hp⟩), hlt⟩
              exact ⟨i :: u, k, v, l, w, rfl, rfl, hkl⟩

theorem Parted.trans (hpq : Parted p q) (hqr : Parted q r) : Parted p r := by
  have hq := (parted_iff.1 hqr).2
  refine parted_iff.2 ⟨fun hpr => ?_, (parted_iff.1 hpq).2.trans hq⟩
  obtain ⟨u, i, v, j, w, rfl, rfl, hij⟩ := hpq
  obtain ⟨t, rfl⟩ := hpr
  have hback : u ++ i :: v ++ t < u ++ j :: w := by
    rw [List.append_assoc]
    exact List.append_left_lt (List.cons_lt_cons_iff.2 (Or.inl hij))
  exact lt_asymm hback hq

namespace Cursor

variable {n : Node} {a b c d e : Cursor} {A A' B B' : Text}

-- ================================================================= places

theorem getElem?_childrenFrom (parent : Node) (above : List (Node × Nat)) (cs : List Node)
    (k i : Nat) : (childrenFrom parent above k cs)[i]?
      = cs[i]?.map fun n => ⟨n, (parent, k + i) :: above⟩ := by
  induction cs generalizing k i with
  | nil => rfl
  | cons c cs ih =>
      cases i with
      | zero => rfl
      | succ i =>
          rw [childrenFrom, List.getElem?_cons_succ, ih, List.getElem?_cons_succ,
            Nat.add_right_comm, Nat.add_assoc]

theorem childAt?_eq_some_iff {i : Nat} : c.childAt? i = some d
    ↔ c.node.children[i]? = some d.node ∧ d.above = (c.node, i) :: c.above := by
  rw [childAt?, children, getElem?_childrenFrom, Option.map_eq_some_iff]
  constructor
  · rintro ⟨m, hm, rfl⟩
    exact ⟨hm, by rw [Nat.zero_add]⟩
  · rintro ⟨hm, habove⟩
    exact ⟨d.node, hm, by rw [Nat.zero_add, ← habove]⟩

theorem path_of_childAt? {i : Nat} (h : c.childAt? i = some d) :
    d.path = c.path ++ [i] := by
  rw [path, (childAt?_eq_some_iff.1 h).2, List.map_cons, List.reverse_cons]
  rfl

theorem path_of_follow? (h : c.follow? p = some d) : d.path = c.path ++ p := by
  induction p generalizing c with
  | nil =>
      rw [follow?] at h
      rw [← Option.some.inj h, List.append_nil]
  | cons i p ih =>
      rw [follow?] at h
      split at h
      · next e he => rw [ih h, path_of_childAt? he, List.append_assoc, List.singleton_append]
      · cases h

theorem follow?_append : c.follow? (p ++ q) = (c.follow? p).bind (·.follow? q) := by
  induction p generalizing c with
  | nil => rfl
  | cons i p ih =>
      rw [List.cons_append, follow?, follow?]
      cases c.childAt? i with
      | none => rfl
      | some e => exact ih

/-- Every place of a subtree is found by following a path. -/
theorem exists_follow? (h : d ∈ c.walk) : ∃ p, c.follow? p = some d := by
  induction c using Cursor.ind with
  | h c ih =>
      rcases mem_walk_iff.1 h with rfl | ⟨e, he, hd⟩
      · exact ⟨[], rfl⟩
      · obtain ⟨i, hi⟩ := List.getElem?_of_mem he
        obtain ⟨p, hp⟩ := ih e he hd
        have hstep : c.follow? (i :: p) = e.follow? p := by
          rw [follow?, childAt?, hi]
        exact ⟨i :: p, hstep.trans hp⟩

/-- In a tree a place is found by its own path. -/
theorem follow?_path (h : a ∈ (top n).walk) : (top n).follow? a.path = some a := by
  obtain ⟨p, hp⟩ := exists_follow? h
  rw [path_of_follow? hp]
  exact hp

/-- Below a place are those whose paths go on from its own. -/
theorem mem_walk_iff_begins (ha : a ∈ (top n).walk) (hb : b ∈ (top n).walk) :
    b ∈ a.walk ↔ a.path <+: b.path := by
  constructor
  · intro h
    obtain ⟨p, hp⟩ := exists_follow? h
    exact ⟨p, (path_of_follow? hp).symm⟩
  · rintro ⟨p, hp⟩
    have hfollow := follow?_path hb
    rw [← hp, follow?_append, follow?_path ha] at hfollow
    exact mem_walk_of_follow? hfollow

/-- The walk lists places in the order of their paths. -/
theorem walk_sorted (c : Cursor) : c.walk.Pairwise fun a b => a.path < b.path := by
  induction c using Cursor.ind with
  | h c ih =>
      rw [walk_eq, List.pairwise_cons]
      refine ⟨fun d hd => ?_, List.pairwise_flatMap.2 ⟨ih, ?_⟩⟩
      · obtain ⟨e, he, hd⟩ := List.mem_flatMap.1 hd
        obtain ⟨i, hi⟩ := List.getElem?_of_mem he
        obtain ⟨p, hp⟩ := exists_follow? hd
        have hlt : c.path ++ [] < c.path ++ i :: p := List.append_left_lt (List.nil_lt_cons i p)
        rw [List.append_nil] at hlt
        rw [path_of_follow? hp, path_of_childAt? hi, List.append_assoc]
        exact hlt
      · refine List.pairwise_iff_getElem.2 fun i j hi hj hij a ha b hb => ?_
        obtain ⟨p, hp⟩ := exists_follow? ha
        obtain ⟨q, hq⟩ := exists_follow? hb
        rw [path_of_follow? hp, path_of_follow? hq,
          path_of_childAt? (List.getElem?_eq_getElem hi),
          path_of_childAt? (List.getElem?_eq_getElem hj), List.append_assoc, List.append_assoc]
        exact List.append_left_lt (List.cons_lt_cons_iff.2 (Or.inl hij))

theorem walk_nodup (c : Cursor) : c.walk.Nodup :=
  c.walk_sorted.imp fun hlt heq => hlt.ne (congrArg path heq)

/-- One path is less than another if the walk comes to its place first. -/
theorem path_lt_iff (ha : a ∈ c.walk) (hb : b ∈ c.walk) : a.path < b.path
    ↔ ∃ i j : Nat, i < j ∧ c.walk[i]? = some a ∧ c.walk[j]? = some b := by
  have hsorted := List.pairwise_iff_getElem.1 c.walk_sorted
  constructor
  · intro hlt
    obtain ⟨i, hi, rfl⟩ := List.getElem_of_mem ha
    obtain ⟨j, hj, rfl⟩ := List.getElem_of_mem hb
    refine ⟨i, j, ?_, List.getElem?_eq_getElem hi, List.getElem?_eq_getElem hj⟩
    rcases lt_trichotomy i j with hij | rfl | hji
    · exact hij
    · exact absurd hlt (lt_irrefl _)
    · exact absurd hlt (lt_asymm (hsorted j i hj hi hji))
  · rintro ⟨i, j, hij, hi, hj⟩
    obtain ⟨hilt, rfl⟩ := List.getElem?_eq_some_iff.1 hi
    obtain ⟨hjlt, rfl⟩ := List.getElem?_eq_some_iff.1 hj
    exact hsorted i j hilt hjlt hij

theorem precedes_iff_parted : a.precedes b = true ↔ Parted a.path b.path := by
  rw [precedes, Bool.and_eq_true, Bool.not_eq_true', ← Bool.not_eq_true,
    List.isPrefixOf_iff_prefix, pathBefore_iff_lt, parted_iff]

-- =============================================================== in print

/-- What is printed around a child is around what its parent prints. -/
theorem Shows.of_childAt? {i : Nat} (hd : c.childAt? i = some d) (h : d.Shows A B) :
    ∃ before after A' B', c.Shows A' B' ∧ c.node.text = none
      ∧ c.node.children = before ++ d.node :: after ∧ before.length = i
      ∧ A = A' ++ (Node.codeAll before ++ d.node.lead) := by
  have habove := (childAt?_eq_some_iff.1 hd).2
  cases h with
  | top n => cases habove
  | @child p _ before after A' B' hp htext hcs hup =>
      obtain ⟨hstep, hrest⟩ := List.cons.inj (habove.symm.trans hup)
      obtain ⟨hnode, hi⟩ := Prod.mk.inj hstep
      obtain rfl : c = p := by
        cases c
        cases p
        exact congrArg₂ Cursor.mk hnode hrest
      exact ⟨before, after, A', B', hp, htext, hcs, hi.symm, rfl⟩

/-- A node prints the nodes below it. -/
theorem Shows.of_follow? (hd : c.follow? p = some d) (h : d.Shows A B) :
    ∃ A' B' X Y, c.Shows A' B' ∧ A = A' ++ X ∧ c.code = X ++ (d.code ++ Y) := by
  induction p generalizing c with
  | nil =>
      rw [follow?] at hd
      obtain rfl := Option.some.inj hd
      exact ⟨A, B, [], [], h, (List.append_nil A).symm, (List.append_nil c.code).symm⟩
  | cons i p ih =>
      rw [follow?] at hd
      split at hd
      · next e he =>
          obtain ⟨A₁, B₁, X, Y, hshows, rfl, hcode⟩ := ih hd
          obtain ⟨before, after, A', B', hc, htext, hcs, -, rfl⟩ := hshows.of_childAt? he
          refine ⟨A', B', Node.codeAll before ++ (e.node.lead ++ X),
            Y ++ (Node.codeAll after ++ c.node.tail), hc, by simp only [List.append_assoc], ?_⟩
          have hcode : e.node.code = X ++ (d.code ++ Y) := hcode
          rw [code, Node.code_of_text_none htext, hcs, Node.codeAll_append, Node.codeAll_cons,
            hcode]
          simp only [List.append_assoc]
      · cases hd

/-- What is printed before a node is told by its place. -/
theorem Shows.before_eq (h : c.Shows A B) (h' : c.Shows A' B') : A = A' := by
  induction h generalizing A' B' with
  | top n =>
      cases h' with
      | top n => rfl
      | child _ _ _ habove => cases habove
  | @child p c before after A B hp htext hcs habove ih =>
      have hstep : p.childAt? before.length = some c :=
        childAt?_eq_some_iff.2 ⟨by rw [hcs]; simp, habove⟩
      obtain ⟨before', after', A₁, B₁, hp', -, hcs', hlen, rfl⟩ := h'.of_childAt? hstep
      rw [ih hp', (List.append_inj (hcs.symm.trans hcs') hlen.symm).1]

/-- Where the paths of two places part, the first is printed before the
second begins. -/
theorem Shows.ends_before (ha : a ∈ (Cursor.top n).walk) (hb : b ∈ (Cursor.top n).walk)
    (h : Parted a.path b.path) (hA : a.Shows A A') (hB : b.Shows B B') :
    A ++ a.code <+: B := by
  obtain ⟨u, i, v, j, w, hpa, hpb, hij⟩ := h
  have hfa := follow?_path ha
  have hfb := follow?_path hb
  rw [hpa, follow?_append] at hfa
  rw [hpb, follow?_append] at hfb
  obtain ⟨c, hc, hfa⟩ := Option.bind_eq_some_iff.1 hfa
  obtain ⟨c', hc', hfb⟩ := Option.bind_eq_some_iff.1 hfb
  obtain rfl := Option.some.inj (hc.symm.trans hc')
  rw [follow?] at hfa hfb
  split at hfa
  · next d hd =>
      split at hfb
      · next e he =>
          obtain ⟨A₁, _, X, Y, hshowsd, rfl, hcode⟩ := hA.of_follow? hfa
          obtain ⟨B₁, _, Z, _, hshowse, rfl, -⟩ := hB.of_follow? hfb
          obtain ⟨before, after, C, _, hC, -, hcs, hi, rfl⟩ := hshowsd.of_childAt? hd
          obtain ⟨before', after', C', _, hC', -, hcs', hj, rfl⟩ := hshowse.of_childAt? he
          obtain rfl := hC.before_eq hC'
          -- the children before the second include the first
          have hfirst : before ++ [d.node] <+: c.node.children :=
            ⟨after, by rw [hcs, List.append_assoc, List.singleton_append]⟩
          have hsecond : before' <+: c.node.children := ⟨e.node :: after', hcs'.symm⟩
          obtain ⟨mid, rfl⟩ := List.prefix_of_prefix_length_le hfirst hsecond (by simp; omega)
          have hcode : d.node.code = X ++ (a.code ++ Y) := hcode
          refine ⟨Y ++ (Node.codeAll mid ++ (e.node.lead ++ Z)), ?_⟩
          rw [List.append_assoc before, Node.codeAll_append, List.singleton_append,
            Node.codeAll_cons, hcode]
          simp only [List.append_assoc]
      · cases hfb
  · cases hfa

end Cursor

/-- Only leaves have a text of their own. -/
def Node.OnlyLeavesWorded (n : Node) : Prop :=
  n.Every fun m => m.text.isSome = true → m.children = []

namespace Cursor

variable {n : Node} {a b c d e : Cursor}

/-- Where only leaves have a text of their own every node is printed. -/
theorem exists_shows_of_worded (hn : n.OnlyLeavesWorded) (ha : a ∈ (top n).walk) :
    ∃ A B, a.Shows A B := by
  obtain ⟨hplaced, hroot⟩ := mem_walk_top.1 ha
  refine exists_shows hplaced fun e he => ?_
  obtain ⟨he', heroot, hae⟩ := hplaced.of_mem_ancestors he
  have hewalk : e ∈ (top n).walk := mem_walk_top.2 ⟨he', heroot.trans hroot⟩
  have hchildren : e.node.children ≠ [] := by
    rcases mem_walk_iff.1 hae with rfl | ⟨d, hd, -⟩
    · exact absurd (length_above_lt_of_mem_ancestors he) (Nat.lt_irrefl _)
    · exact List.ne_nil_of_mem (node_mem_of_mem_children hd)
  rw [← Option.not_isSome_iff_eq_none]
  exact fun htext => hchildren (hn _ (node_mem_walk hewalk) htext)

/-- One place precedes another if the walk comes to it first and the other
is not below it. This orders the places, any two of which are comparable
if neither is below the other, and it orders what they print: the text of
the first ends before the text of the second begins. -/
theorem precedes_is_source_order (n : Node) (hn : n.OnlyLeavesWorded) :
    (∀ a ∈ (top n).walk, ∀ b ∈ (top n).walk, a.precedes b = true
      ↔ (∃ i j : Nat, i < j ∧ (top n).walk[i]? = some a ∧ (top n).walk[j]? = some b)
        ∧ b ∉ a.walk)
    ∧ (∀ a : Cursor, a.precedes a = false)
    ∧ (∀ a b c : Cursor, a.precedes b = true → b.precedes c = true → a.precedes c = true)
    ∧ (∀ a ∈ (top n).walk, ∀ b ∈ (top n).walk, a ∉ b.walk → b ∉ a.walk →
      a.precedes b = true ∨ b.precedes a = true)
    ∧ ∀ a ∈ (top n).walk, ∀ b ∈ (top n).walk, a.precedes b = true →
      ∃ A A' B B', a.Shows A A' ∧ b.Shows B B'
        ∧ n.render = A ++ (a.code ++ A') ∧ n.render = B ++ (b.code ++ B')
        ∧ A ++ a.code <+: B := by
  refine ⟨fun a ha b hb => ?_, fun a => ?_, fun a b c hab hbc => ?_,
    fun a ha b hb hna hnb => ?_, fun a ha b hb hab => ?_⟩
  · rw [precedes_iff_parted, parted_iff, ← mem_walk_iff_begins ha hb, path_lt_iff ha hb,
      and_comm]
  · rw [← Bool.not_eq_true, precedes_iff_parted, parted_iff]
    exact fun h => h.1 List.prefix_rfl
  · rw [precedes_iff_parted] at *
    exact hab.trans hbc
  · rw [mem_walk_iff_begins ha hb] at hnb
    rw [mem_walk_iff_begins hb ha] at hna
    rw [precedes_iff_parted, precedes_iff_parted, parted_iff, parted_iff]
    rcases lt_trichotomy a.path b.path with hlt | heq | hgt
    · exact Or.inl ⟨hnb, hlt⟩
    · exact absurd (heq ▸ List.prefix_rfl) hnb
    · exact Or.inr ⟨hna, hgt⟩
  · obtain ⟨A, A', hA⟩ := exists_shows_of_worded hn ha
    obtain ⟨B, B', hB⟩ := exists_shows_of_worded hn hb
    have hrender : ∀ {c : Cursor} {C C' : Text}, c ∈ (top n).walk → c.Shows C C' →
        n.render = C ++ (c.code ++ C') := by
      intro c C C' hc hC
      rw [← hC.render_root, (mem_walk_top.1 hc).2]
      rfl
    exact ⟨A, A', B, B', hA, hB, hrender ha hA, hrender hb hB,
      hA.ends_before ha hb (precedes_iff_parted.1 hab) hB⟩

/-- A call `f( x)`: the function comes before the argument. -/
def callOfName : Node :=
  .branch .callExpression [
    .leaf .identifier (.ofString "f"),
    .branch .arguments [
      .token "(",
      (Node.leaf .identifier (.ofString "x")).placed none (.ofString " "),
      .token ")"]]

theorem precedes_is_source_order_call :
    callOfName.OnlyLeavesWorded ∧ ∃ a b, (top callOfName).follow? [0] = some a
      ∧ (top callOfName).follow? [1, 1] = some b ∧ a.precedes b = true ∧ b ∉ a.walk
      ∧ ∃ A B A' B', a.Shows A A' ∧ b.Shows B B' ∧ A ++ a.code <+: B := by
  have hn : callOfName.OnlyLeavesWorded := by
    rw [Node.OnlyLeavesWorded, Node.Every]
    decide
  obtain ⟨a, ha⟩ : ∃ a, (top callOfName).follow? [0] = some a := ⟨_, rfl⟩
  obtain ⟨b, hb⟩ : ∃ b, (top callOfName).follow? [1, 1] = some b := ⟨_, rfl⟩
  have hamem := mem_walk_of_follow? ha
  have hbmem := mem_walk_of_follow? hb
  obtain ⟨hwalk, -, -, -, hprint⟩ := precedes_is_source_order callOfName hn
  have hab : a.precedes b = true := by
    rw [precedes_iff_parted, path_of_follow? ha, path_of_follow? hb]
    exact ⟨[], 0, [], 1, [1], rfl, rfl, by decide⟩
  obtain ⟨A, A', B, B', hA, hB, -, -, hends⟩ := hprint a hamem b hbmem hab
  exact ⟨hn, a, b, ha, hb, hab, ((hwalk a hamem b hbmem).1 hab).2, A, B, A', B', hA, hB, hends⟩

end Cursor

end Codemod
