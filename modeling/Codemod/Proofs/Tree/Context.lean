/-
The places around a node.

A node is printed between two texts (`Cursor.Shows`), and whatever stands in
its place is printed between the same (`Shows.render_plug`). Three changes of
a tree are followed through the places above a node: pruning below a node
changes the tree in this place only (`prune_rootIn`), another node in the
place has the same parent, but for the child (`parent?_refill`), and a
substitution leaves every position where it is, save for those below what it
replaces (`mem_walk_substitute`).
-/
import Codemod.Proofs.Tree.Forest
import Codemod.Proofs.Tree.Print

namespace Codemod

open Cursor

-- ================================================================ printing

/-- A text is printed before the node and a text behind it, its lead being
part of the first. -/
inductive Cursor.Shows : Cursor → Text → Text → Prop
  | top (n : Node) : Shows (top n) n.lead []
  | child {p c : Cursor} {before after : List Node} {A B : Text} : Shows p A B →
      p.node.text = none → p.node.children = before ++ c.node :: after →
      c.above = (p.node, before.length) :: p.above →
      Shows c (A ++ (Node.codeAll before ++ c.node.lead))
        (Node.codeAll after ++ (p.node.tail ++ B))

namespace Cursor

variable {c p : Cursor} {A B : Text}

/-- What stands in the place is printed there. -/
theorem Shows.render_plug (h : c.Shows A B) {x : Node} (hlead : x.lead = c.node.lead) :
    (plug c.above x).render = A ++ (x.code ++ B) := by
  induction h generalizing x with
  | top n =>
    show x.lead ++ x.code = n.lead ++ (x.code ++ [])
    rw [List.append_nil, hlead]
    rfl
  | @child p c before after A B _ htext hcs habove ih =>
    have hset : p.node.children.set before.length x = before ++ x :: after := by
      rw [hcs, List.set_append, if_neg (Nat.lt_irrefl _), Nat.sub_self, List.set_cons_zero]
    have hcode : ({ p.node with children := before ++ x :: after } : Node).code
        = Node.codeAll (before ++ x :: after) ++ p.node.tail := Node.code_of_text_none htext
    rw [habove, plug, hset, ih (x := { p.node with children := before ++ x :: after }) rfl,
      hcode, Node.codeAll_append, Node.codeAll_cons, hlead]
    simp only [List.append_assoc]

theorem Shows.placed (h : c.Shows A B) : c.Placed := by
  induction h with
  | top n => exact placed_top n
  | @child p c before after A B _ _ hcs habove ih =>
    unfold Placed
    rw [habove]
    exact ⟨by rw [hcs]; simp, ih⟩

theorem Shows.render_root (h : c.Shows A B) : c.root.node.render = A ++ (c.code ++ B) := by
  have hroot : plug c.above c.node = c.root.node := plug_eq_rootIn h.placed
  rw [← hroot, h.render_plug rfl]
  rfl

/-- A node is printed if none of its ancestors has a text of its own. -/
theorem exists_shows (hc : c.Placed) (h : ∀ a ∈ c.ancestors, a.node.text = none) :
    ∃ A B, c.Shows A B := by
  obtain ⟨n, above⟩ := c
  induction above generalizing n with
  | nil => exact ⟨_, _, .top n⟩
  | cons pi up ih =>
    obtain ⟨p, i⟩ := pi
    rw [ancestors, ancestorsIn, List.forall_mem_cons] at h
    obtain ⟨A, B, hshows⟩ := ih p hc.2 h.2
    obtain ⟨hi, hn⟩ : ∃ hi : i < p.children.length, p.children[i] = n :=
      List.getElem?_eq_some_iff.1 hc.1
    have hcs : p.children = p.children.take i ++ n :: p.children.drop (i + 1) := by
      rw [← hn, ← List.drop_eq_getElem_cons hi, List.take_append_drop]
    have hlen : (p.children.take i).length = i := by
      rw [List.length_take]
      omega
    exact ⟨_, _, .child hshows h.1 hcs (by rw [hlen])⟩

end Cursor

-- ================================================================= pruning

namespace Node

variable {gone : List Nat} {n : Node} {j : Nat}

theorem isIn_eq_false (h : ∀ i ∈ n.ids, i ∉ gone) : n.isIn gone = false := by
  unfold isIn
  split
  · next i hi => simpa using h i (mem_ids.2 ⟨n, self_mem_walk n, hi⟩)
  · rfl

theorem isIn_singleton : n.isIn [j] = false ↔ n.id ≠ some j := by
  unfold isIn
  split
  · next i hi => simp [hi]
  · next hi => simp [hi]

/-- Where none of the nodes is there is nothing to prune. -/
theorem prune_of_not_mem (h : ∀ i ∈ n.ids, i ∉ gone) : n.prune gone = n := by
  induction n using Node.ind with
  | h n ih =>
    have hc : ∀ c ∈ n.children, ∀ i ∈ c.ids, i ∉ gone := fun c hc i hi =>
      h i ((ids_sublist_of_mem_children hc).subset hi)
    have hfilter : (n.children.filter fun c => !c.isIn gone) = n.children :=
      List.filter_eq_self.2 fun c hmem => by rw [isIn_eq_false (hc c hmem), Bool.not_false]
    have hmap : n.children.map (prune gone) = n.children := by
      conv_rhs => rw [← List.map_id n.children]
      exact List.map_congr_left fun c hmem => ih c hmem (hc c hmem)
    rw [prune_eq, hfilter, with_children_eq hmap]

end Node

namespace Cursor

variable {above : List (Node × Nat)} {n m : Node} {j : Nat}

/-- What is pruned below a node changes the tree in this place only. -/
theorem prune_rootIn (h : PlacedIn n above) (hnd : (rootIn n above).ids.Nodup)
    (hmem : j ∈ n.ids) (hid : n.id ≠ some j) :
    (rootIn n above).prune [j] = plug above (n.prune [j]) := by
  induction above generalizing n with
  | nil => rfl
  | cons pi up ih =>
    obtain ⟨p, i⟩ := pi
    have hpnd : p.ids.Nodup := hnd.sublist (ids_sublist_rootIn h.2)
    have hother : ∀ k b, p.children[k]? = some b → k ≠ i → j ∉ b.ids := fun k b hb hki =>
      Node.not_mem_ids_of_ne hpnd h.1 hb (Ne.symm hki) hmem
    have hfilter : (p.children.filter fun c => !c.isIn [j]) = p.children := by
      rw [List.filter_eq_self]
      intro b hb
      obtain ⟨k, hk⟩ := List.getElem?_of_mem hb
      rw [Bool.not_eq_true', Node.isIn_singleton]
      by_cases hki : k = i
      · subst hki
        obtain rfl := Option.some.inj (hk.symm.trans h.1)
        exact hid
      · intro hbj
        exact hother k b hk hki (Node.mem_ids.2 ⟨b, Node.self_mem_walk b, hbj⟩)
    have hp : p.prune [j] = { p with children := p.children.set i (n.prune [j]) } := by
      rw [Node.prune_eq, hfilter]
      refine congrArg (fun cs => { p with children := cs }) (Node.map_eq_set h.1 ?_)
      intro k b hb hki
      exact Node.prune_of_not_mem fun l hl => by
        rintro hmem
        obtain rfl := List.mem_singleton.1 hmem
        exact hother k b hb hki hl
    have hpmem : j ∈ p.ids :=
      (Node.ids_sublist_of_mem_children (List.mem_of_getElem? h.1)).subset hmem
    have hpid : p.id ≠ some j :=
      Node.id_ne_of_mem_child hpnd (List.mem_of_getElem? h.1) hmem
    have hup := ih h.2 hnd hpmem hpid
    rwa [hp] at hup

-- ================================================================= places

/-- The places above a node when another stands for it. -/
def replug : List (Node × Nat) → Node → List (Node × Nat)
  | [], _ => []
  | (p, i) :: up, x =>
    let q := { p with children := p.children.set i x }
    (q, i) :: replug up q

/-- Another node in the same place. -/
def refill (c : Cursor) (x : Node) : Cursor := ⟨x, replug c.above x⟩

theorem plug_replug (x y : Node) : plug (replug above x) y = plug above y := by
  induction above generalizing x y with
  | nil => rfl
  | cons pi up ih =>
    obtain ⟨p, i⟩ := pi
    rw [replug, plug, plug, List.set_set]
    exact ih _ _

theorem placedIn_replug (h : PlacedIn n above) (x : Node) :
    PlacedIn x (replug above x) ∧ rootIn x (replug above x) = plug above x := by
  induction above generalizing n x with
  | nil => exact ⟨True.intro, rfl⟩
  | cons pi up ih =>
    obtain ⟨p, i⟩ := pi
    obtain ⟨hi, -⟩ := List.getElem?_eq_some_iff.1 h.1
    obtain ⟨hplaced, hroot⟩ := ih h.2 { p with children := p.children.set i x }
    exact ⟨⟨List.getElem?_set_self hi, hplaced⟩, hroot⟩

variable {c p : Cursor}

theorem refill_mem_walk (hc : c.Placed) (x : Node) :
    c.refill x ∈ (top (plug c.above x)).walk := by
  obtain ⟨hplaced, hroot⟩ := placedIn_replug hc x
  exact mem_walk_top.2 ⟨hplaced, congrArg top hroot⟩

/-- The parent of the place keeps all but the child. -/
theorem parent?_refill (hp : c.parent? = some p) (x : Node) :
    ∃ q k, (c.refill x).parent? = some q ∧ c.above = (p.node, k) :: p.above
      ∧ q.node = { p.node with children := p.node.children.set k x } := by
  obtain ⟨n, above⟩ := c
  cases above with
  | nil => cases hp
  | cons pi up =>
    obtain ⟨r, k⟩ := pi
    obtain rfl : (⟨r, up⟩ : Cursor) = p := Option.some.inj hp
    exact ⟨_, k, rfl, rfl, rfl⟩

-- =========================================================== substitution

/-- The position of a node when all nodes from it to the top are changed. -/
def image (g : Node → Node) (a : Cursor) : Cursor :=
  ⟨g a.node, a.above.map fun (q, k) => (g q, k)⟩

theorem image_substitute {i : Nat} {f : Node → Node → Node} {a : Cursor} (ha : a.Placed)
    (hid : a.node.id ≠ some i) (hup : ∀ e ∈ a.ancestors, e.node.id ≠ some i) :
    (a.image (Node.substitute i f)).Placed
      ∧ (a.image (Node.substitute i f)).root = top (a.root.node.substitute i f) := by
  obtain ⟨n, above⟩ := a
  induction above generalizing n with
  | nil => exact ⟨True.intro, rfl⟩
  | cons pi up ih =>
    obtain ⟨q, k⟩ := pi
    rw [ancestors, ancestorsIn, List.forall_mem_cons] at hup
    obtain ⟨hplaced, hroot⟩ := ih q ha.2 hup.1 hup.2
    have hchild : q.children[k]? = some n := ha.1
    have hkeeps : Node.substituteChild i f q n = n.substitute i f := by
      rw [Node.substituteChild, if_neg (by simpa using hid)]
    refine ⟨⟨?_, hplaced⟩, hroot⟩
    rw [Node.substitute_eq, List.getElem?_map, hchild, Option.map_some, hkeeps]
    rfl

theorem mem_walk_substitute {t : Node} {i : Nat} {f : Node → Node → Node} {a : Cursor}
    (ha : a ∈ (top t).walk) (hid : a.node.id ≠ some i)
    (hup : ∀ e ∈ a.ancestors, e.node.id ≠ some i) :
    a.image (Node.substitute i f) ∈ (top (t.substitute i f)).walk := by
  obtain ⟨hplaced, hroot⟩ := mem_walk_top.1 ha
  obtain ⟨hplaced', hroot'⟩ := image_substitute (f := f) hplaced hid hup
  rw [hroot] at hroot'
  exact mem_walk_top.2 ⟨hplaced', hroot'⟩

end Cursor

end Codemod
