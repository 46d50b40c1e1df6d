/-
Replacing a node of a program.

A workspace is sound while its program is shaped, every node of the
program has an identity, no two share one, and all of them are below the
next free number. Replacing a node by something made of its own parts
keeps a workspace sound (`Sound.splice`), and leaves what is listed
before and behind the node as it was (`listed_splice`).
-/
import Mathlib.Data.List.Perm.Subperm
import Codemod.Proofs.Tree.Assembly

namespace Codemod

namespace Node

-- ============================================================== in place

/-- `new` can stand where `old` stands without spoiling the shape of what
is around it. -/
structure CanReplace (old new : Node) : Prop where
  role : new.role = old.role
  mute : old.isMute = true → new.isMute = true
  substitution : old.is .templateSubstitution = true →
    new.is .templateSubstitution = true
  inPlace : old.InPlace → new.InPlace

theorem fits_set {roles : List Role} {cs : List Node} {i : Nat}
    {old new : Node} (hi : cs[i]? = some old) (h : CanReplace old new)
    (hf : Fits roles cs) : Fits roles (cs.set i new) := by
  have hstands : ∀ c : Node, c.role = old.role →
      standsIn roles c = standsIn roles old := by
    intro c hc
    rw [standsIn, standsIn, hc]
  obtain ⟨hlt, rfl⟩ := List.getElem?_eq_some_iff.1 hi
  have hcs : cs = cs.take i ++ cs[i] :: cs.drop (i + 1) := by
    rw [List.getElem_cons_drop, List.take_append_drop]
  have hset : cs.set i new = cs.take i ++ new :: cs.drop (i + 1) :=
    List.set_eq_take_append_cons_drop .. |>.trans (if_pos hlt)
  have hnew : standsIn roles new = standsIn roles cs[i] := hstands new h.role
  constructor
  · have hord := hf.ordered
    rw [hcs] at hord
    rw [hset]
    simp only [List.filter_append, List.filter_cons, hnew] at hord ⊢
    split
    · next hin =>
        simp only [hin, if_true, List.filterMap_append, List.filterMap_cons,
          h.role] at hord ⊢
        exact hord
    · next hin =>
        rw [if_neg hin] at hord
        exact hord
  · intro c hc hno
    rw [hset, List.mem_append, List.mem_cons] at hc
    rcases hc with hc | rfl | hc
    · exact hf.others c (List.mem_of_mem_take hc) hno
    · rw [hnew] at hno
      exact h.mute (hf.others cs[i] (List.getElem_mem hlt) hno)
    · exact hf.others c (List.mem_of_mem_drop hc) hno

theorem formed_set {n old new : Node} {i : Nat}
    (hi : n.children[i]? = some old) (h : CanReplace old new) (hf : n.Formed) :
    ({ n with children := n.children.set i new } : Node).Formed := by
  have hne : n.children ≠ [] := by
    intro hnil
    rw [hnil] at hi
    cases hi
  refine ⟨fun hop => absurd (hf.plain hop) hne,
    fun ht => absurd (hf.worded ht) hne, fun s roles hk hr => ?_,
    fun ht c hc hsub => ?_, fun c hc => ?_⟩
  · exact fits_set hi h (hf.parts s roles hk hr)
  · rcases List.mem_or_eq_of_mem_set hc with hc | rfl
    · exact hf.template ht c hc hsub
    · cases hold : old.is .templateSubstitution with
      | true =>
          rw [h.substitution hold] at hsub
          cases hsub
      | false => exact h.mute (hf.template ht old (List.mem_of_getElem? hi) hold)
  · rcases List.mem_or_eq_of_mem_set hc with hc | rfl
    · exact hf.inPlace c hc
    · exact h.inPlace (hf.inPlace old (List.mem_of_getElem? hi))

/-- The node above can be replaced too. -/
theorem canReplace_set {n old new : Node} {i : Nat}
    (hi : n.children[i]? = some old) :
    CanReplace n { n with children := n.children.set i new } where
  role := rfl
  mute := by
    intro hmute
    rw [isMute, Bool.and_eq_true, List.isEmpty_iff] at hmute
    rw [hmute.1] at hi
    cases hi
  substitution := fun h => h
  inPlace := by
    intro h test htest
    have hpass := h test htest
    unfold roleTest? at htest
    split at htest
    · obtain rfl := Option.some.inj htest
      exact hpass
    · obtain rfl := Option.some.inj htest
      rw [isMute, Bool.and_eq_true, List.isEmpty_iff] at hpass
      rw [hpass.1] at hi
      cases hi
    · cases htest

/-- An expression can give way to any other that keeps its role, unless
the role or what is around asks for its kind. -/
theorem canReplace_expression {old new : Node} {s : Symbol}
    (hk : old.is s = true) (hs : s ∉ [.templateSubstitution, .formalParameters])
    (hr : new.role = old.role) (hm : old.isMute = true → new.isMute = true) :
    CanReplace old new := by
  have hkind : old.kind = .symbol s := by simpa [is] using hk
  have hne : ∀ t ∈ [Symbol.templateSubstitution, .formalParameters],
      old.is t = false := by
    intro t ht
    rw [Bool.eq_false_iff]
    intro h
    rw [is, hkind] at h
    obtain rfl : s = t := by simpa using h
    exact hs ht
  refine ⟨hr, hm, fun h => ?_, fun h test htest => ?_⟩
  · rw [hne _ (by simp)] at h
    cases h
  · rw [hr] at htest
    have hpass := h test htest
    unfold roleTest? at htest
    split at htest
    · obtain rfl := Option.some.inj htest
      exact absurd hpass (Bool.eq_false_iff.1 (hne _ (by simp)))
    · obtain rfl := Option.some.inj htest
      exact hm hpass
    · cases htest

end Node

namespace Cursor

/-- The whole stays shaped when a place is given something shaped that
fits there. -/
theorem shaped_plug {above : List (Node × Nat)} {n new : Node}
    (h : PlacedIn n above) (hroot : (rootIn n above).Shaped)
    (hnew : new.Shaped) (hr : Node.CanReplace n new) :
    (plug above new).Shaped := by
  induction above generalizing n new with
  | nil => exact hnew
  | cons pi up ih =>
      obtain ⟨p, i⟩ := pi
      have hpmem : p ∈ (rootIn p up).walk := by
        have hplaced : (⟨p, up⟩ : Cursor).Placed := h.2
        exact node_mem_walk hplaced.mem_walk_root
      have hps : p.Shaped := hroot.of_mem_walk hpmem
      rw [plug]
      refine ih h.2 hroot ?_ (Node.canReplace_set h.1)
      rw [Node.shaped_iff]
      refine ⟨Node.formed_set h.1 hr hps.formed, fun c hc => ?_⟩
      rcases List.mem_or_eq_of_mem_set hc with hc | rfl
      · exact hps.of_mem_children hc
      · exact hnew

end Cursor

/-- Every node of the whole has an identity when those around the place
have and those put there have. -/
theorem Cursor.isSome_plug {above : List (Node × Nat)} {n new : Node}
    (h : PlacedIn n above) (hroot : ∀ m ∈ (rootIn n above).walk, m.id.isSome)
    (hnew : ∀ m ∈ new.walk, m.id.isSome) :
    ∀ m ∈ (plug above new).walk, m.id.isSome := by
  induction above generalizing n new with
  | nil => exact hnew
  | cons pi up ih =>
      obtain ⟨p, i⟩ := pi
      have hplaced : (⟨p, up⟩ : Cursor).Placed := h.2
      have hpmem : p ∈ (rootIn p up).walk := node_mem_walk hplaced.mem_walk_root
      rw [plug]
      refine ih h.2 hroot fun m hm => ?_
      rcases Node.mem_walk_iff.1 hm with rfl | ⟨c, hc, hmc⟩
      · exact hroot p hpmem
      · rcases List.mem_or_eq_of_mem_set hc with hc | rfl
        · exact hroot m (Node.mem_walk_trans hpmem (Node.mem_walk_of_child hc hmc))
        · exact hnew m hmc

/-- A replacement in a tree of its own: where it happens. -/
theorem Node.exists_substitute {whole m : Node} {i : Nat}
    (hnd : whole.ids.Nodup) (hm : m ∈ whole.walk) (hid : m.id = some i)
    (hne : whole.id ≠ some i) (f : Node → Node → Node) :
    ∃ c p : Cursor, c ∈ (Cursor.top whole).walk ∧ c.node = m
      ∧ c.parent? = some p
      ∧ whole.substitute i f = Cursor.plug c.above (f p.node m) := by
  rw [show whole = (Cursor.top whole).node from rfl, ← Cursor.map_node_walk] at hm
  obtain ⟨c, hc, rfl⟩ := List.mem_map.1 hm
  obtain ⟨hplaced, hroot⟩ := Cursor.mem_walk_top.1 hc
  cases hp : c.parent? with
  | none =>
      obtain ⟨n, above⟩ := c
      cases above with
      | nil =>
          have hn : n = whole := congrArg Cursor.node hroot
          subst hn
          exact absurd hid hne
      | cons pi up => cases hp
  | some p =>
      refine ⟨c, p, hc, rfl, hp, ?_⟩
      have hrn : c.root.node = whole := by rw [hroot]; rfl
      have := Cursor.substitute_eq_plug (f := f) hplaced
        (by rw [hrn]; exact hnd) hid hp
      rw [hrn] at this
      exact this

-- ============================================================= splicing

namespace Workspace

@[simp] theorem listed_fitted (q : Kind → Bool → Bool) (parent old new : Node) :
    (fitted parent old new).listed q = new.listed q := by
  unfold fitted
  simp only [Node.listed_placed]
  split <;> simp

theorem role_fitted (parent old new : Node) :
    (fitted parent old new).role = old.role := rfl

theorem shaped_fitted {parent old new : Node} (h : new.Shaped) :
    (fitted parent old new).Shaped := by
  unfold fitted
  simp only [Node.shaped_placed]
  split
  · exact Build.shaped_parenthesized h
  · exact h

/-- The program is shaped, and its nodes are told apart by identities
that have been given out. -/
structure Sound (w : Workspace) : Prop where
  shaped : w.program.Shaped
  isSome : ∀ m ∈ w.program.walk, m.id.isSome
  nodup : w.program.ids.Nodup
  bounded : ∀ i ∈ w.program.ids, i < w.next

variable {w : Workspace} {c p : Cursor} {new : Node}

theorem nodup_of_subperm {l m : List Nat} (h : l.Subperm m) (hm : m.Nodup) :
    l.Nodup := by
  obtain ⟨l', hp, hs⟩ := h
  exact hp.nodup_iff.1 (hm.sublist hs)

/-- What replaces a node, numbered. -/
def inserted (w : Workspace) (parent old new : Node) : Node × Nat :=
  (fitted parent old new).number w.next

theorem numbered_inserted (w : Workspace) (parent old new : Node) :
    Node.Numbered w.next [fitted parent old new]
      [(w.inserted parent old new).1] (w.inserted parent old new).2 :=
  Node.numbered_number _ _

theorem role_number (k : Nat) (n : Node) : (n.number k).1.role = n.role := by
  rw [Node.number_eq]

/-- Splicing puts the numbered replacement in the node's place. -/
theorem program_splice (hw : w.Sound) (hc : c ∈ (Cursor.top w.program).walk)
    (hp : c.parent? = some p) (new : Node) :
    (w.splice p.node c.node new).program
        = Cursor.plug c.above (w.inserted p.node c.node new).1
      ∧ (w.splice p.node c.node new).next
        = (w.inserted p.node c.node new).2 := by
  obtain ⟨hplaced, hroot⟩ := Cursor.mem_walk_top.1 hc
  have hsome := hw.isSome c.node (Cursor.node_mem_walk hc)
  obtain ⟨i, hi⟩ := Option.isSome_iff_exists.1 hsome
  have hrn : c.root.node = w.program := by rw [hroot]; rfl
  unfold splice
  rw [hi]
  refine ⟨?_, rfl⟩
  have := Cursor.substitute_eq_plug
    (f := fun _ _ => (w.inserted p.node c.node new).1) hplaced
    (by rw [hrn]; exact hw.nodup) hi hp
  rw [hrn] at this
  exact this

theorem rootIn_eq (hc : c ∈ (Cursor.top w.program).walk) :
    Cursor.rootIn c.node c.above = w.program :=
  congrArg Cursor.node (Cursor.mem_walk_top.1 hc).2

/-- Apart from new numbers a replacement lists what it did. -/
theorem listed_inserted {parent old : Node} (hnew : ∀ i ∈ new.ids, i < w.next)
    {q : Kind → Bool → Bool} :
    ((w.inserted parent old new).1.listed q).filter (· < w.next)
      = new.listed q := by
  have := (numbered_inserted w parent old new).listed q w.next
    (Nat.le_refl _) (by
      intro i hi
      rw [List.flatMap_singleton, Node.ids_eq_listed, listed_fitted,
        ← Node.ids_eq_listed] at hi
      exact hnew i hi)
  simpa using this

/-- Before and behind a replaced node the program lists what it did. -/
theorem listed_splice (hw : w.Sound) (hc : c ∈ (Cursor.top w.program).walk)
    (hp : c.parent? = some p)
    (hnew : ∀ i ∈ new.ids, i < w.next) (q : Kind → Bool → Bool) :
    ∃ before after, w.program.listed q = before ++ (c.node.listed q ++ after)
      ∧ ((w.splice p.node c.node new).program.listed q).filter (· < w.next)
        = before ++ (new.listed q ++ after) := by
  have hplaced := (Cursor.mem_walk_top.1 hc).1
  obtain ⟨before, after, hl⟩ := Cursor.listed_plug hplaced q
  have hwhole : w.program.listed q = before ++ (c.node.listed q ++ after) := by
    rw [← hl c.node, Cursor.plug_eq_rootIn hplaced, rootIn_eq hc]
  refine ⟨before, after, hwhole, ?_⟩
  have hold : ∀ i, i ∈ before ∨ i ∈ after → i < w.next := by
    intro i hi
    refine hw.bounded i (Node.mem_ids_of_mem_listed (p := q) ?_)
    rw [hwhole]
    rcases hi with hi | hi
    · exact List.mem_append_left _ hi
    · exact List.mem_append_right _ (List.mem_append_right _ hi)
  have hbefore : before.filter (· < w.next) = before :=
    List.filter_eq_self.2 fun i hi => by simpa using hold i (Or.inl hi)
  have hafter : after.filter (· < w.next) = after :=
    List.filter_eq_self.2 fun i hi => by simpa using hold i (Or.inr hi)
  rw [(program_splice hw hc hp new).1, hl, List.filter_append, List.filter_append,
    hbefore, hafter, listed_inserted hnew]

theorem ids_fitted (parent old new : Node) :
    (fitted parent old new).ids = new.ids := by
  rw [Node.ids_eq_listed, listed_fitted, ← Node.ids_eq_listed]

/-- The identities of what is put in are the replaced node's own, or
new. -/
theorem inserted_fresh {parent old : Node} (htaken : new.ids.Subperm old.ids) :
    ∀ i ∈ (w.inserted parent old new).1.ids, i ∈ old.ids
      ∨ (w.next ≤ i ∧ i < (w.inserted parent old new).2) := by
  intro i hi
  have hfresh := (numbered_inserted w parent old new).fresh i (by simpa using hi)
  rw [List.flatMap_singleton, ids_fitted] at hfresh
  exact hfresh.imp_left fun h => htaken.subset h

theorem nodup_inserted {parent old : Node} (htaken : new.ids.Subperm old.ids)
    (hold : old.ids.Nodup) (hlt : ∀ i ∈ old.ids, i < w.next) :
    (w.inserted parent old new).1.ids.Nodup := by
  have hnodup := (numbered_inserted w parent old new).nodup
  simp only [List.flatMap_singleton, ids_fitted] at hnodup
  exact hnodup (nodup_of_subperm htaken hold) fun i hi =>
    hlt i (htaken.subset hi)

/-- Numbers give way to others among which only new ones are added. -/
theorem nodup_exchanged {before mid mid' after : List Nat} {k : Nat}
    (hnd : (before ++ (mid ++ after)).Nodup)
    (hlt : ∀ i ∈ before ++ (mid ++ after), i < k) (hmid : mid'.Nodup)
    (hfresh : ∀ i ∈ mid', i ∈ mid ∨ k ≤ i) :
    (before ++ (mid' ++ after)).Nodup := by
  rw [List.nodup_append, List.nodup_append] at hnd ⊢
  obtain ⟨hbefore, ⟨-, hafter, hmidafter⟩, houter⟩ := hnd
  refine ⟨hbefore, ⟨hmid, hafter, fun i hi j hj hij => ?_⟩, fun i hi j hj hij => ?_⟩
  · subst hij
    rcases hfresh i hi with h | h
    · exact hmidafter i h i hj rfl
    · have := hlt i (by simp [hj])
      omega
  · subst hij
    rcases List.mem_append.1 hj with hj | hj
    · rcases hfresh i hj with h | h
      · exact houter i hi i (List.mem_append_left _ h) rfl
      · have := hlt i (by simp [hi])
        omega
    · exact houter i hi i (List.mem_append_right _ hj) rfl

/-- The identities of a program in which a node has been replaced. -/
theorem exists_ids_splice (hw : w.Sound) (hc : c ∈ (Cursor.top w.program).walk)
    (hp : c.parent? = some p) (new : Node) :
    ∃ before after, w.program.ids = before ++ (c.node.ids ++ after)
      ∧ (w.splice p.node c.node new).program.ids
        = before ++ ((w.inserted p.node c.node new).1.ids ++ after) := by
  have hplaced := (Cursor.mem_walk_top.1 hc).1
  obtain ⟨before, after, hl⟩ := Cursor.listed_plug hplaced fun _ _ => true
  simp only [← Node.ids_eq_listed] at hl
  refine ⟨before, after, ?_, ?_⟩
  · rw [← hl c.node, Cursor.plug_eq_rootIn hplaced, rootIn_eq hc]
  · rw [(program_splice hw hc hp new).1, hl]

/-- Replacing a node by something made of its own parts keeps a workspace
sound. -/
theorem Sound.splice (hw : w.Sound) (hc : c ∈ (Cursor.top w.program).walk)
    (hp : c.parent? = some p) (hmute : c.node.isMute = false)
    {s : Symbol} (hk : c.node.is s = true)
    (hs : s ∉ [.templateSubstitution, .formalParameters]) (hshape : new.Shaped)
    (htaken : new.ids.Subperm c.node.ids) :
    (w.splice p.node c.node new).Sound
      ∧ w.next ≤ (w.splice p.node c.node new).next := by
  have hplaced := (Cursor.mem_walk_top.1 hc).1
  obtain ⟨hprog, hnext⟩ := program_splice hw hc hp new
  have hnum := numbered_inserted w p.node c.node new
  obtain ⟨before, after, hids, hids'⟩ := exists_ids_splice hw hc hp new
  have hsub := Node.ids_sublist_of_mem_walk (Cursor.node_mem_walk hc)
  have hfresh : ∀ i ∈ (w.inserted p.node c.node new).1.ids, i ∈ c.node.ids
      ∨ (w.next ≤ i ∧ i < (w.inserted p.node c.node new).2) :=
    inserted_fresh htaken
  have hlt : ∀ i ∈ before ++ (c.node.ids ++ after), i < w.next := by
    rw [← hids]
    exact hw.bounded
  have hle : w.next ≤ (w.splice p.node c.node new).next := by
    rw [hnext]
    exact hnum.le_next
  refine ⟨?_, hle⟩
  constructor
  case shaped =>
    rw [hprog]
    refine Cursor.shaped_plug hplaced (by rw [rootIn_eq hc]; exact hw.shaped)
      (Node.shaped_number.2 (shaped_fitted hshape))
      (Node.canReplace_expression hk hs ?_ fun h => ?_)
    · rw [inserted, role_number, role_fitted]
    · rw [hmute] at h
      cases h
  case isSome =>
    rw [hprog]
    refine Cursor.isSome_plug hplaced (by rw [rootIn_eq hc]; exact hw.isSome) ?_
    exact hnum.isSome _ (List.mem_singleton.2 rfl)
  case nodup =>
    have hnd := hw.nodup
    rw [hids] at hnd
    rw [hids']
    refine nodup_exchanged hnd hlt ?_ fun i hi => (hfresh i hi).imp_right And.left
    exact nodup_inserted htaken (hw.nodup.sublist hsub) fun i hi =>
      hw.bounded i (hsub.subset hi)
  case bounded =>
    intro i hi
    rw [hids', List.mem_append, List.mem_append] at hi
    rcases hi with hi | hi | hi
    · exact Nat.lt_of_lt_of_le (hlt i (by simp [hi])) hle
    · rcases hfresh i hi with h | h
      · exact Nat.lt_of_lt_of_le (hw.bounded i (hsub.subset h)) hle
      · rw [hnext]
        exact h.2
    · exact Nat.lt_of_lt_of_le (hlt i (by simp [hi])) hle

end Workspace

end Codemod
