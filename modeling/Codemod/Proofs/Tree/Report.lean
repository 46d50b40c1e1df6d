/-
Reports on a tree.

A report goes through a tree from the top. What is handed down to a child
depends on its parent and on its role, and what a node reports for itself
depends on what it has been handed. So the report on the whole is known
from what the single nodes report (`Report.mem_of_iff`), and says at one
place what it said before, whatever is put in another (`Report.of_plug`).
-/
import Mathlib.Data.List.Forall2
import Codemod.Proofs.Tree.Shape

namespace Codemod

/-- What is handed down can depend on: all of a node but its role and its
children. -/
structure Head where
  /-- The identity. -/
  id : Option Nat
  /-- What the node is. -/
  kind : Kind
  /-- False for a bare token. -/
  named : Bool
  /-- The text of a leaf. -/
  word : Text

namespace Head

/-- The kind is the given grammar word. -/
def is (h : Head) (s : Symbol) : Bool := h.kind == .symbol s

/-- The kind is one of the given grammar words. -/
def isAny (h : Head) (ss : List Symbol) : Bool := ss.any h.is

/-- Neither a bare token nor a comment. -/
def isOperand (h : Head) : Bool := h.named && !h.is .comment

/-- The same without the identity. -/
def bare (h : Head) : Head := { h with id := none }

/-- A node is of one kind. -/
theorem is_false {h : Head} {s t : Symbol} (hs : h.is s = true) (hne : s ≠ t) :
    h.is t = false := by
  rw [is, beq_iff_eq] at hs
  rw [is, hs, beq_eq_false_iff_ne]
  exact fun heq => hne (Kind.symbol.inj heq)

theorem isAny_false {h : Head} {s : Symbol} {ts : List Symbol} (hs : h.is s = true)
    (hne : s ∉ ts) : h.isAny ts = false := by
  rw [isAny, List.any_eq_false]
  intro t ht hi
  rw [is_false hs (fun heq => hne (heq ▸ ht))] at hi
  cases hi

end Head

namespace Node

/-- The head of the node. -/
def head (n : Node) : Head := ⟨n.id, n.kind, n.named, n.text.getD n.tail⟩

@[simp] theorem head_placed (n : Node) (r : Option Role) (l : Text) :
    (n.placed r l).head = n.head := rfl

@[simp] theorem head_is (n : Node) (s : Symbol) : n.head.is s = n.is s := rfl

@[simp] theorem head_isAny (n : Node) (ss : List Symbol) :
    n.head.isAny ss = n.isAny ss := rfl

@[simp] theorem head_isOperand (n : Node) : n.head.isOperand = n.isOperand := rfl

/-- The text of a leaf is its word. -/
theorem code_of_children_nil {n : Node} (h : n.children = []) :
    n.code = n.head.word := by
  obtain ⟨i, k, b, r, l, t, cs, z⟩ := n
  obtain rfl : cs = [] := h
  cases t with
  | none => simp [code, codeAll, head]
  | some t => simp [code, head]

end Node

/-- A way to report on trees. -/
structure Report (α β : Type) where
  /-- What a node reports for itself. -/
  own : α → Node → List β
  /-- What a node hands to a child in a role. -/
  pass : α → Head → Option Role → α

namespace Report

variable {α β : Type}

mutual

/-- The report on a subtree: what is below the top, and the top. -/
def of (S : Report α β) (a : α) : Node → List β
  | ⟨i, k, b, r, l, t, cs, z⟩ =>
    ofAll S a ⟨i, k, b, t.getD z⟩ cs ++ S.own a ⟨i, k, b, r, l, t, cs, z⟩

/-- The report on the children of a node. -/
def ofAll (S : Report α β) (a : α) (h : Head) : List Node → List β
  | [] => []
  | c :: cs => of S (S.pass a h c.role) c ++ ofAll S a h cs

end

variable (S : Report α β) {a : α}

theorem ofAll_eq (h : Head) (cs : List Node) :
    S.ofAll a h cs = cs.flatMap fun c => S.of (S.pass a h c.role) c := by
  induction cs with
  | nil => rw [ofAll, List.flatMap_nil]
  | cons c cs ih => rw [ofAll, ih, List.flatMap_cons]

theorem of_eq (a : α) (n : Node) :
    S.of a n = (n.children.flatMap fun c => S.of (S.pass a n.head c.role) c)
      ++ S.own a n := by
  obtain ⟨i, k, b, r, l, t, cs, z⟩ := n
  rw [of, ofAll_eq]
  rfl

/-- The report on what passes a test. -/
def only (q : β → Bool) : Report α β := ⟨fun a n => (S.own a n).filter q, S.pass⟩

theorem of_only (q : β → Bool) (a : α) (n : Node) :
    (S.only q).of a n = (S.of a n).filter q := by
  induction n using Node.ind generalizing a with
  | h n ih =>
      rw [of_eq, of_eq S a n, List.filter_append, List.filter_flatMap]
      exact congrArg (· ++ _) (List.flatMap_congr fun c hc => ih c hc _)

-- ================================================================= parts

variable {S}

/-- What gives nothing may be left out. -/
theorem flatMap_filter_of_nil {γ δ : Type} {f : γ → List δ} {q : γ → Bool}
    {l : List γ} (h : ∀ x ∈ l, q x = false → f x = []) :
    (l.filter q).flatMap f = l.flatMap f := by
  induction l with
  | nil => rfl
  | cons x l ih =>
      rw [List.forall_mem_cons] at h
      rw [List.flatMap_cons, List.filter_cons, ← ih h.2]
      cases hx : q x with
      | true => rw [if_pos rfl, List.flatMap_cons]
      | false => rw [h.1 hx]; rfl

/-- Where the other children have nothing to report, the parts in their
roles report all that is reported below the node. -/
theorem of_parts {c : Cursor} {roles : List Role}
    (h : Node.Fits roles c.node.children) (hnd : roles.Nodup)
    (hothers : ∀ d ∈ c.node.children, Node.standsIn roles d = false →
      S.of (S.pass a c.node.head d.role) d = []) :
    S.of a c.node = ((roles.filterMap c.child?).flatMap fun d =>
        S.of (S.pass a c.node.head d.node.role) d.node)
      ++ S.own a c.node := by
  rw [of_eq, ← flatMap_filter_of_nil hothers, h.filter_eq hnd,
    ← Cursor.map_node_parts, List.flatMap_map]

variable (S)

-- ============================================================== in place

/-- What is handed down to a node in given places. -/
def handedIn (a : α) : Option Role → List (Node × Nat) → α
  | _, [] => a
  | r, (p, _) :: up => S.pass (handedIn a p.role up) p.head r

/-- What is handed down to a place. -/
def handed (a : α) (c : Cursor) : α := S.handedIn a c.node.role c.above

theorem handed_of_mem_children {c d : Cursor} (h : d ∈ c.children) :
    S.handed a d = S.pass (S.handed a c) c.node.head d.node.role := by
  obtain ⟨i, -, habove⟩ := Cursor.mem_children.1 h
  rw [handed, habove, handedIn]
  rfl

/-- What is reported of a tree is reported by one of its nodes. -/
theorem mem_of_iff {b : β} (c : Cursor) : b ∈ S.of (S.handed a c) c.node
    ↔ ∃ d ∈ c.walk, b ∈ S.own (S.handed a d) d.node := by
  induction c using Cursor.ind with
  | h c ih =>
      have hbelow : (b ∈ c.node.children.flatMap fun e =>
          S.of (S.pass (S.handed a c) c.node.head e.role) e)
          ↔ ∃ e ∈ c.children, ∃ d ∈ e.walk, b ∈ S.own (S.handed a d) d.node := by
        rw [← Cursor.map_node_children, List.flatMap_map, List.mem_flatMap]
        refine exists_congr fun e => and_congr_right fun he => ?_
        rw [← S.handed_of_mem_children he]
        exact ih e he
      rw [of_eq, List.mem_append, hbelow]
      constructor
      · rintro (⟨e, he, d, hd, hb⟩ | hb)
        · exact ⟨d, Cursor.mem_walk_iff.2 (Or.inr ⟨e, he, hd⟩), hb⟩
        · exact ⟨c, Cursor.self_mem_walk c, hb⟩
      · rintro ⟨d, hd, hb⟩
        rcases Cursor.mem_walk_iff.1 hd with rfl | ⟨e, he, hd⟩
        · exact Or.inr hb
        · exact Or.inl ⟨e, he, d, hd, hb⟩

/-- What a node reports, for any child in a given place. -/
theorem of_set {p n : Node} {i : Nat} (h : p.children[i]? = some n) (a : α) :
    ∃ left right, ∀ m : Node, m.role = n.role →
      S.of a { p with children := p.children.set i m }
        = left ++ (S.of (S.pass a p.head n.role) m
          ++ (right ++ S.own a { p with children := p.children.set i m })) := by
  obtain ⟨hi, -⟩ := List.getElem?_eq_some_iff.1 h
  refine ⟨(p.children.take i).flatMap fun c => S.of (S.pass a p.head c.role) c,
    (p.children.drop (i + 1)).flatMap fun c => S.of (S.pass a p.head c.role) c,
    fun m hm => ?_⟩
  rw [of_eq]
  simp only [List.set_eq_take_append_cons_drop, hi, if_true, List.flatMap_append,
    List.flatMap_cons, List.append_assoc, hm]
  rfl

/-- When one part of a tree is replaced, the nodes around it report
alike, and all others what they did. `Like` tells how a tree on the way up
from the replacement is like what it was, in the places that are left, and
`g` how what its top reports is. -/
theorem of_plug {Like : List (Node × Nat) → Node → Node → Prop} {g : β → β → Prop}
    (hg : ∀ b, g b b)
    (hown : ∀ a p i up c c', p.children[i]? = some c → Like ((p, i) :: up) c' c →
      List.Forall₂ g (S.own a { p with children := p.children.set i c' }) (S.own a p))
    (hup : ∀ p i up c c', p.children[i]? = some c → Like ((p, i) :: up) c' c →
      Like up { p with children := p.children.set i c' } p)
    {above : List (Node × Nat)} {n r : Node} (h : Cursor.PlacedIn n above)
    (hr : r.role = n.role) (hlike : Like above r n) :
    ∃ before before' after after',
      List.Forall₂ g before' before ∧ List.Forall₂ g after' after
        ∧ S.of a (Cursor.plug above n)
          = before ++ (S.of (S.handedIn a n.role above) n ++ after)
        ∧ S.of a (Cursor.plug above r)
          = before' ++ (S.of (S.handedIn a n.role above) r ++ after') := by
  have hrefl : ∀ l : List β, List.Forall₂ g l l :=
    fun l => List.forall₂_same.2 fun b _ => hg b
  induction above generalizing n r with
  | nil =>
      refine ⟨[], [], [], [], .nil, .nil, ?_, ?_⟩ <;> rw [Cursor.plug, handedIn] <;> simp
  | cons pi up ih =>
      obtain ⟨p, i⟩ := pi
      obtain ⟨hi, hn⟩ := List.getElem?_eq_some_iff.1 h.1
      have hset : p.children.set i n = p.children := by
        rw [← hn]
        exact List.set_getElem_self hi
      obtain ⟨before, before', after, after', hb, ha, hold, hnew⟩ :=
        @ih p { p with children := p.children.set i r } h.2 rfl
          (hup p i up n r h.1 hlike)
      obtain ⟨left, right, hof⟩ := S.of_set h.1 (S.handedIn a p.role up)
      have hn := hof n rfl
      rw [Node.with_children_eq hset] at hn
      have htop := hown (S.handedIn a p.role up) p i up n r h.1 hlike
      refine ⟨before ++ left, before' ++ left, right ++ (_ ++ after),
        right ++ (_ ++ after'), List.rel_append hb (hrefl _),
        List.rel_append (hrefl _) (List.rel_append htop ha), ?_, ?_⟩
      · rw [Cursor.plug, Node.with_children_eq hset, hold, hn, handedIn]
        simp only [List.append_assoc]
      · rw [Cursor.plug, hnew, hof r hr, handedIn]
        simp only [List.append_assoc]

/-- Where the nodes around a replacement report from their heads alone,
all but what is replaced reports what it did. -/
theorem of_plug_same (hown : ∀ a p cs, S.own a { p with children := cs } = S.own a p)
    {above : List (Node × Nat)} {n : Node} (h : Cursor.PlacedIn n above) :
    ∃ before after, ∀ r : Node, r.role = n.role →
      S.of a (Cursor.plug above r)
        = before ++ (S.of (S.handedIn a n.role above) r ++ after) := by
  induction above generalizing n with
  | nil => exact ⟨[], [], fun r _ => by rw [Cursor.plug, handedIn]; simp⟩
  | cons pi up ih =>
      obtain ⟨p, i⟩ := pi
      obtain ⟨before, after, hall⟩ := ih h.2
      obtain ⟨left, right, hof⟩ := S.of_set h.1 (S.handedIn a p.role up)
      refine ⟨before ++ left, right ++ (S.own (S.handedIn a p.role up) p ++ after),
        fun r hr => ?_⟩
      rw [Cursor.plug, hall { p with children := p.children.set i r } rfl, hof r hr,
        hown, handedIn]
      simp only [List.append_assoc]

end Report

end Codemod
