/-
Callbacks that are changed where they stand.

A callback may have its two parameters exchanged, and the element's name
put in the place of `this`. Names have no effects, so the effects of the
callback stay as they are (`renews_visitor`).
-/
import Codemod.Proofs.Effect.Element
import Codemod.Proofs.Tree.Reach

namespace Codemod

/-- A tree made of the parts of another, with the same effects. -/
structure Node.Renews (old new : Node) : Prop where
  shaped : new.Shaped
  id : new.id = old.id
  listed : ∀ p, (new.listed p).Subperm (old.listed p)
  effects : new.effects = old.effects

namespace Node

theorem Renews.refl {n : Node} (h : n.Shaped) : Renews n n :=
  ⟨h, rfl, fun _ => List.Subperm.refl _, rfl⟩

theorem Renews.trans {a b c : Node} (h : Renews a b) (h' : Renews b c) :
    Renews a c :=
  ⟨h'.shaped, h'.id.trans h.id, fun p => (h'.listed p).trans (h.listed p),
    h'.effects.trans h.effects⟩

theorem Renews.nodup {a b : Node} (h : Renews a b) (ha : a.ids.Nodup) :
    b.ids.Nodup := by
  rw [ids_eq_listed] at ha ⊢
  exact Workspace.nodup_of_subperm (h.listed _) ha

theorem Renews.kind {a b m m' : Node} {i : Nat} (h : Renews a b)
    (ha : a.ids.Nodup) (hm : m ∈ a.walk) (hi : m.id = some i)
    (hm' : m' ∈ b.walk) (hi' : m'.id = some i) : m'.kind = m.kind :=
  (kind_eq_of_taken ha (fun p => (h.listed p).subset) hm hi hm' hi').1

/-- Replacing a part by something with the same effects, made of its own
parts. -/
theorem renews_replacing (old : Cursor) (new : Node) {whole : Node}
    (hs : whole.Shaped) (hnd : whole.ids.Nodup)
    (hne : old.node.id.isSome → whole.id ≠ old.node.id) (hnew : new.Shaped)
    (hold : ∀ m ∈ whole.walk, m.id.isSome → m.id = old.node.id →
      (∀ p, (new.listed p).Subperm (m.listed p)) ∧ new.effects = m.effects
        ∧ ∀ q, CanReplace m (Workspace.fitted q m new)) :
    Renews whole (whole.replacing old new) := by
  unfold replacing
  cases hid : old.node.id with
  | none => exact Renews.refl hs
  | some i =>
      simp only
      rw [hid] at hne hold
      by_cases hmem : i ∈ whole.ids
      · obtain ⟨m, hm, hmi⟩ := mem_ids.1 hmem
        obtain ⟨hlisted, heff, hcan⟩ := hold m hm (by simp [hmi]) hmi
        obtain ⟨c, p, hc, rfl, hp, hplug⟩ := exists_substitute hnd hm hmi
          (hne rfl) fun p o => Workspace.fitted p o new
        obtain ⟨hplaced, hroot⟩ := Cursor.mem_walk_top.1 hc
        have hrn : Cursor.rootIn c.node c.above = whole :=
          congrArg Cursor.node hroot
        rw [hplug]
        refine ⟨?_, ?_, fun q => ?_, ?_⟩
        · exact Cursor.shaped_plug hplaced (by rw [hrn]; exact hs)
            (Workspace.shaped_fitted hnew) (hcan _)
        · obtain ⟨n, above⟩ := c
          cases above with
          | nil => cases hp
          | cons pi up =>
              obtain ⟨q, i⟩ := pi
              rw [← hrn]
              show (Cursor.plug up _).id = (Cursor.rootIn q up).id
              exact Cursor.id_plug rfl
        · obtain ⟨before, after, hl⟩ := Cursor.listed_plug hplaced q
          have hwhole := hl c.node
          rw [Cursor.plug_eq_rootIn hplaced, hrn] at hwhole
          rw [hl, hwhole, Workspace.listed_fitted]
          exact (List.subperm_append_left _).2
            ((List.subperm_append_right _).2 (hlisted q))
        · obtain ⟨before, after, hl⟩ := Cursor.listed_plug hplaced isEffectKind
          have hwhole := hl c.node
          rw [Cursor.plug_eq_rootIn hplaced, hrn] at hwhole
          rw [effects, effects, hl, hwhole, Workspace.listed_fitted]
          exact congrArg (fun l => before ++ (l ++ after)) heff
      · rw [substitute_of_not_mem hmem]
        exact Renews.refl hs

-- ======================================================== leaves replaced

/-- The nodes of a tree in which one has been replaced stem from nodes of
the tree, or from what has been put in. -/
theorem mem_walk_substitute {i : Nat} {f : Node → Node → Node} {n d : Node}
    (hn : n.id ≠ some i) (hf : ∀ q m, ∀ e ∈ (f q m).walk, e.id = none)
    (hd : d ∈ (n.substitute i f).walk) (hsome : d.id.isSome) :
    ∃ m ∈ n.walk, m.id ≠ some i ∧ d = m.substitute i f := by
  induction n using Node.ind with
  | h n ih =>
      rw [substitute_eq] at hd
      rcases mem_walk_iff.1 hd with rfl | ⟨e, he, hde⟩
      · exact ⟨n, self_mem_walk n, hn, (substitute_eq ..).symm⟩
      · obtain ⟨c, hc, rfl⟩ := List.mem_map.1 he
        unfold substituteChild at hde
        split at hde
        · rw [hf n c d hde] at hsome
          cases hsome
        · next hci =>
            obtain ⟨m, hm, hmi, hdm⟩ := ih c hc (by simpa using hci) hde
            exact ⟨m, mem_walk_of_child hc hm, hmi, hdm⟩

/-- A leaf replaced by something without identities is listed no more. -/
theorem mem_listed_substitute {i j : Nat} {f : Node → Node → Node} {n : Node}
    {p : Kind → Bool → Bool} (hn : n.id ≠ some i)
    (hf : ∀ q m, (f q m).listed p = [])
    (hleaf : ∀ m ∈ n.walk, m.id = some i → m.children = []) :
    j ∈ (n.substitute i f).listed p ↔ j ∈ n.listed p ∧ j ≠ i := by
  induction n using Node.ind with
  | h n ih =>
      have hchild : ∀ c ∈ n.children,
          j ∈ (substituteChild i f n c).listed p ↔ j ∈ c.listed p ∧ j ≠ i := by
        intro c hc
        unfold substituteChild
        split
        · next hci =>
            have hci' : c.id = some i := by simpa using hci
            have hnil := hleaf c (mem_walk_of_child hc (self_mem_walk c)) hci'
            rw [hf, listed_eq, hnil, List.flatMap_nil, List.append_nil]
            constructor
            · intro h
              cases h
            · rintro ⟨h, hji⟩
              have := ownListed_subset p c j h
              rw [hci', Option.toList_some, List.mem_singleton] at this
              exact absurd this hji
        · next hci =>
            exact ih c hc (by simpa using hci) fun m hm =>
              hleaf m (mem_walk_of_child hc hm)
      have hown : j ∈ n.ownListed p → j ≠ i := by
        rintro h rfl
        have := ownListed_subset p n j h
        exact hn (by simpa using this)
      rw [substitute_eq, listed_eq, listed_eq p n, List.mem_append,
        List.mem_append, List.mem_flatMap, List.mem_flatMap]
      constructor
      · rintro (h | ⟨e, he, hj⟩)
        · exact ⟨Or.inl h, hown h⟩
        · obtain ⟨c, hc, rfl⟩ := List.mem_map.1 he
          have := (hchild c hc).1 hj
          exact ⟨Or.inr ⟨c, hc, this.1⟩, this.2⟩
      · rintro ⟨h | ⟨c, hc, hj⟩, hji⟩
        · exact Or.inl h
        · exact Or.inr ⟨_, List.mem_map_of_mem hc, (hchild c hc).2 ⟨hj, hji⟩⟩

/-- Some leaves of the tree have been replaced: every node with an
identity stems from a node of the tree and lists what that did, the
leaves apart. -/
def Spares (gone : List Nat) (old new : Node) : Prop :=
  ∀ m ∈ new.walk, ∀ j, m.id = some j →
    ∃ d ∈ old.walk, d.id = some j ∧ (m.children = [] → d.children = [])
      ∧ ∀ p i, i ∈ m.listed p ↔ i ∈ d.listed p ∧ i ∉ gone

theorem Spares.refl (n : Node) : Spares [] n n :=
  fun m hm j hj => ⟨m, hm, hj, fun h => h, fun p i => by simp⟩

theorem Spares.substitute {gone : List Nat} {old new : Node} {i : Nat}
    {f : Node → Node → Node} (h : Spares gone old new) (hn : new.id ≠ some i)
    (hf : ∀ q m, ∀ e ∈ (f q m).walk, e.id = none)
    (hleaf : ∀ m ∈ new.walk, m.id = some i → m.children = []) :
    Spares (i :: gone) old (new.substitute i f) := by
  intro d' hd' j hj
  obtain ⟨m, hm, hmi, rfl⟩ := mem_walk_substitute hn hf hd' (by rw [hj]; rfl)
  have hid : (m.substitute i f).id = m.id := by rw [substitute_eq]
  obtain ⟨d, hd, hdj, hnil, hlist⟩ := h m hm j (hid ▸ hj)
  refine ⟨d, hd, hdj, fun hc => hnil ?_, fun p k => ?_⟩
  · rw [substitute_eq] at hc
    exact List.map_eq_nil_iff.1 hc
  · have hfl : ∀ q e, (f q e).listed p = [] := by
      intro q e
      rw [List.eq_nil_iff_forall_not_mem]
      intro k hk
      obtain ⟨x, hx, hxk, -⟩ := mem_listed.1 hk
      rw [hf q e x hx] at hxk
      cases hxk
    rw [mem_listed_substitute hmi hfl fun e he => hleaf e (mem_walk_trans hm he),
      hlist, List.mem_cons, not_or]
    constructor
    · rintro ⟨⟨h1, h2⟩, h3⟩
      exact ⟨h1, h3, h2⟩
    · rintro ⟨h1, h3, h2⟩
      exact ⟨⟨h1, h2⟩, h3⟩

end Node

-- ============================================================= parameters

namespace Cursor

variable {c f callback first second : Cursor}

/-- Two plain parameters stand side by side in the list of parameters,
which holds nothing but names. -/
theorem simpleParameters?_pair
    (h : f.simpleParameters? = some [first, second]) :
    ∃ ps, f.child? .parameters = some ps ∧ ps.operands = [first, second]
      ∧ first.is .identifier = true ∧ second.is .identifier = true := by
  unfold simpleParameters? at h
  split at h
  · split at h <;> simp at h
  · split at h
    · cases h
    · next ps hps =>
        split at h
        · next hall =>
            have hops := Option.some.inj h
            rw [List.all_eq_true] at hall
            rw [hops] at hall
            exact ⟨ps, hps, hops, hall first (by simp), hall second (by simp)⟩
        · cases h

end Cursor

namespace Node

variable {whole : Node} {first second ps : Cursor}

/-- A list of parameters can give way to another. -/
theorem canReplace_parameters {old parent : Node} {es : List Node}
    (hk : old.is .formalParameters = true) (hne : old.children ≠ []) :
    CanReplace old (Workspace.fitted parent old (Build.formalParameters es)) := by
  have hmute : old.isMute = false := by
    rw [isMute, List.isEmpty_eq_false_iff.2 hne]
    rfl
  refine ⟨rfl, fun h => ?_, fun h => ?_, fun hin test htest => ?_⟩
  · rw [hmute] at h
    cases h
  · have hkind : old.kind = .symbol .formalParameters := by simpa [is] using hk
    rw [is, hkind] at h
    cases h
  · rw [Workspace.role_fitted] at htest
    have hold := hin test htest
    unfold roleTest? at htest
    split at htest
    · next hr =>
        obtain rfl := Option.some.inj htest
        have hno : needsParentheses (Build.formalParameters es).kind parent.kind
            old.role = false := by
          have hkind : (Build.formalParameters es).kind
              = .symbol .formalParameters := rfl
          have hany : ∀ ss : List Symbol, .formalParameters ∉ ss →
              (Kind.symbol .formalParameters).isAny ss = false := by
            intro ss hss
            rw [Kind.isAny, List.any_eq_false]
            intro s hs h
            obtain rfl : Symbol.formalParameters = s := by simpa using h
            exact hss hs
          rw [hr, hkind, needsParentheses, hany _ (by decide),
            hany looseSymbols (by decide), hany _ (by decide),
            hany _ (by decide)]
          simp
        unfold Workspace.fitted
        rw [hno]
        rfl
    · obtain rfl := Option.some.inj htest
      rw [hmute] at hold
      cases hold
    · cases htest

/-- Exchanging two parameters, where the list of parameters holds both
and has no effects. -/
theorem renews_exchanging (hparent : first.parent? = some ps)
    (hs : whole.Shaped) (hnd : whole.ids.Nodup)
    (hne : ps.node.id.isSome → whole.id ≠ ps.node.id)
    (hshape : ∀ a ∈ [second, first], a.node.Shaped)
    (heff : ∀ a ∈ [second, first], a.node.effects = [])
    (hold : ∀ m ∈ whole.walk, m.id.isSome → m.id = ps.node.id →
      m.is .formalParameters = true ∧ m.children ≠ [] ∧ m.effects = []
        ∧ ∀ p, ([second, first].flatMap (·.node.listed p)).Subperm
          (m.listed p)) :
    Renews whole (whole.exchanging first second) := by
  rw [exchanging, hparent]
  refine renews_replacing _ _ hs hnd hne ?_ fun m hm hsome hid => ?_
  · refine Build.shaped_formalParameters fun e he => ?_
    obtain ⟨a, ha, rfl⟩ : ∃ a ∈ [second, first], a.node = e := by
      simpa [eq_comm] using he
    exact hshape a ha
  · obtain ⟨hk, hchildren, hmeff, hlisted⟩ := hold m hm hsome hid
    refine ⟨fun p => ?_, ?_, fun q => canReplace_parameters hk hchildren⟩
    · simpa using hlisted p
    · have h1 : first.node.listed isEffectKind = [] := heff first (by simp)
      have h2 : second.node.listed isEffectKind = [] := heff second (by simp)
      rw [hmeff, effects, Build.listed_formalParameters]
      simp [h1, h2]

theorem isAtom_of_thisExpr {n : Node} (h : n.is .thisExpr = true) :
    n.isAtom = true := by
  rw [isAtom, Bool.or_eq_true]
  exact Or.inr (List.any_eq_true.2 ⟨_, by decide, h⟩)

/-- Whatever has the identity of `this` is `this` still, and it is not the
whole. -/
theorem Renews.is_thisExpr {base m n : Node} (hw : Renews base whole)
    (hnd : base.ids.Nodup) (hn : n ∈ base.walk) (hk : n.is .thisExpr = true)
    (hm : m ∈ whole.walk) (hsome : m.id.isSome) (hid : m.id = n.id) :
    m.is .thisExpr = true := by
  obtain ⟨i, hi⟩ := Option.isSome_iff_exists.1 hsome
  have hkind : n.kind = .symbol .thisExpr := by simpa [is] using hk
  rw [is, hw.kind hnd hn (hid ▸ hi) hm hi, hkind]
  simp

theorem Renews.id_ne_thisExpr {base n : Node} (hw : Renews base whole)
    (hnd : base.ids.Nodup) (hbase : base.is .thisExpr = false)
    (hn : n ∈ base.walk) (hk : n.is .thisExpr = true) (hsome : n.id.isSome) :
    whole.id ≠ n.id := by
  intro hid
  obtain ⟨i, hi⟩ := Option.isSome_iff_exists.1 hsome
  have heq := eq_of_id_eq hnd (self_mem_walk base) hn
    ((hw.id.symm.trans hid).trans hi) hi
  rw [heq, hk] at hbase
  cases hbase

/-- A name in the place of `this`. -/
theorem Renews.naming {base : Node} {n : Cursor} (name : Text)
    (hw : Renews base whole) (hnd : base.ids.Nodup)
    (hbase : base.is .thisExpr = false) (hn : n.node ∈ base.walk)
    (hk : n.node.is .thisExpr = true) :
    Renews base (whole.replacing n (Build.identifier name)) := by
  refine hw.trans (renews_replacing n (Build.identifier name) hw.shaped
    (hw.nodup hnd) (hw.id_ne_thisExpr hnd hbase hn hk)
    (Build.shaped_identifier name) fun m hm hsome hid => ?_)
  have hthis := hw.is_thisExpr hnd hn hk hm hsome hid
  refine ⟨fun p => ?_, ?_, fun q => ?_⟩
  · rw [Build.listed_identifier]
    exact List.nil_subperm
  · rw [Node.effects, Build.listed_identifier]
    exact (Cursor.effects_thisExpr (c := Cursor.top m)
      (hw.shaped.of_mem_walk hm) hthis).symm
  · exact canReplace_expression hthis (by decide) rfl fun _ => rfl

theorem Spares.naming {base : Node} {gone : List Nat} {n : Cursor} {i : Nat}
    (name : Text) (hspares : Spares gone base whole) (hw : Renews base whole)
    (hnd : base.ids.Nodup) (hbase : base.is .thisExpr = false)
    (hn : n.node ∈ base.walk) (hk : n.node.is .thisExpr = true)
    (hid : n.node.id = some i) :
    Spares (i :: gone) base (whole.replacing n (Build.identifier name)) := by
  rw [replacing, hid]
  refine hspares.substitute ?_ ?_ ?_
  · rw [← hid]
    exact hw.id_ne_thisExpr hnd hbase hn hk (by rw [hid]; rfl)
  · intro q m e he
    obtain rfl := List.mem_singleton.1 he
    rfl
  · intro m hm hmi
    refine (hw.shaped.of_mem_walk hm).formed.plain (isAtom_of_thisExpr ?_)
    exact hw.is_thisExpr hnd hn hk hm (by rw [hmi]; rfl) (hmi.trans hid.symm)

/-- Names put in the place of `this`: the rest of the tree is spared. -/
theorem renews_naming {base : Node} {gone : List Nat} {thisNodes : List Cursor}
    (name : Text) (hnd : base.ids.Nodup) (hbase : base.is .thisExpr = false)
    (hthis : ∀ n ∈ thisNodes, n.node ∈ base.walk ∧ n.is .thisExpr = true)
    (hgone : ∀ i ∈ gone, ∃ n ∈ base.walk, n.id = some i
      ∧ n.is .thisExpr = true)
    (hw : Renews base whole) (hspares : Spares gone base whole) :
    ∃ gone', (∀ i ∈ gone', ∃ n ∈ base.walk, n.id = some i
        ∧ n.is .thisExpr = true)
      ∧ Renews base (thisNodes.foldl
          (fun w n => w.replacing n (Build.identifier name)) whole)
      ∧ Spares gone' base (thisNodes.foldl
          (fun w n => w.replacing n (Build.identifier name)) whole) := by
  induction thisNodes generalizing whole gone with
  | nil => exact ⟨gone, hgone, hw, hspares⟩
  | cons n ns ih =>
      obtain ⟨hn, hk⟩ := hthis n List.mem_cons_self
      have hrest : ∀ m ∈ ns, m.node ∈ base.walk ∧ m.is .thisExpr = true :=
        fun m hm => hthis m (List.mem_cons_of_mem _ hm)
      cases hid : n.node.id with
      | none =>
          have heq : whole.replacing n (Build.identifier name) = whole := by
            rw [replacing, hid]
          rw [List.foldl_cons, heq]
          exact ih hrest hgone hw hspares
      | some i =>
          refine ih hrest ?_ (hw.naming name hnd hbase hn hk)
            (hspares.naming name hw hnd hbase hn hk hid)
          intro j hj
          rcases List.mem_cons.1 hj with rfl | hj
          · exact ⟨n.node, hn, hid, hk⟩
          · exact hgone j hj

end Node

-- ============================================================== callbacks

variable {callback first second : Cursor}

/-- The parameters of a function are a list of parameters. -/
theorem Cursor.Stands.is_formalParameters {f ps : Cursor} (hf : f.Stands)
    (hps : f.child? .parameters = some ps) :
    ps.node.is .formalParameters = true := by
  have hmem := Cursor.node_mem_of_mem_children (Cursor.mem_children_of_child? hps)
  have hrole : ps.node.role = some .parameters := by
    have := Cursor.map_node_child? f .parameters
    rw [hps, Option.map_some] at this
    simpa using List.find?_some this.symm
  exact hf.node.formed.inPlace ps.node hmem _ (by rw [hrole]; rfl)

/-- The list of parameters in a callback holds two names. -/
structure Cursor.HoldsPair (callback first second ps : Cursor) : Prop where
  mem : ps.node ∈ callback.node.walk
  smaller : ps.node.size < callback.node.size
  is_formalParameters : ps.node.is .formalParameters = true
  operands : ps.operands = [first, second]
  names : ∀ a ∈ [second, first], a.node.is .identifier = true

theorem Cursor.Stands.exists_holdsPair (hc : callback.Stands)
    (hp : callback.unparen.simpleParameters? = some [first, second]) :
    ∃ ps, callback.HoldsPair first second ps := by
  obtain ⟨ps, hps, hops, hfirst, hsecond⟩ := Cursor.simpleParameters?_pair hp
  have hfmem := Cursor.unparen_mem_walk callback
  have hpsf := Cursor.node_mem_of_mem_children (Cursor.mem_children_of_child? hps)
  refine ⟨ps, ?_, ?_, (hc.of_mem_walk hfmem).is_formalParameters hps, hops, ?_⟩
  · exact Node.mem_walk_trans (Cursor.node_mem_walk hfmem)
      (Node.mem_walk_of_child hpsf (Node.self_mem_walk _))
  · exact Nat.lt_of_lt_of_le (Node.size_lt_of_mem_children hpsf)
      (Node.size_le_of_mem_walk (Cursor.node_mem_walk hfmem))
  · exact List.forall_mem_cons.2 ⟨hsecond, List.forall_mem_singleton.2 hfirst⟩

namespace Cursor.HoldsPair

variable {ps : Cursor} (h : callback.HoldsPair first second ps)
include h

theorem mem_children : ∀ a ∈ [second, first], a ∈ ps.children := by
  intro a ha
  refine Cursor.mem_children_of_mem_operands ?_
  rw [h.operands]
  simpa [or_comm] using ha

theorem children_ne_nil : ps.node.children ≠ [] :=
  List.ne_nil_of_mem
    (Cursor.node_mem_of_mem_children (h.mem_children first (by simp)))

theorem name_mem_walk {a : Cursor} (ha : a ∈ [second, first]) :
    a.node ∈ callback.node.walk :=
  Node.mem_walk_trans h.mem (Node.mem_walk_of_child
    (Cursor.node_mem_of_mem_children (h.mem_children a ha)) (Node.self_mem_walk _))

theorem shaped (hs : callback.node.Shaped) :
    ∀ a ∈ [second, first], a.node.Shaped := fun a ha =>
  (hs.of_mem_walk h.mem).of_mem_children
    (Cursor.node_mem_of_mem_children (h.mem_children a ha))

theorem effects_names (hs : callback.node.Shaped) :
    ∀ a ∈ [second, first], a.node.effects = [] := fun a ha =>
  Cursor.effects_identifier (h.shaped hs a ha) (h.names a ha)

theorem effects_list (hs : callback.node.Shaped) : ps.node.effects = [] := by
  rw [Node.effects_eq, Cursor.ownListed_of_kind h.is_formalParameters (by decide),
    Cursor.effects_operands (hs.of_mem_walk h.mem), ← Cursor.map_node_operands,
    List.flatMap_map, h.operands]
  simp [h.effects_names hs]

/-- Exchanged, the two list what the list of parameters does. -/
theorem listed_subperm (p : Kind → Bool → Bool) :
    ([second, first].flatMap (·.node.listed p)).Subperm (ps.node.listed p) := by
  have hsub : (ps.operands.flatMap (·.node.listed p)).Sublist
      (ps.node.listed p) := by
    rw [Node.listed_eq]
    refine List.Sublist.trans ?_ (List.sublist_append_right _ _)
    rw [← Cursor.map_node_children, List.flatMap_map]
    exact List.Sublist.flatMap List.filter_sublist _
  rw [h.operands] at hsub
  refine List.Subperm.trans (List.Perm.subperm ?_) hsub.subperm
  exact (List.Perm.swap first second []).flatMap_right _

theorem is_false_of_mem (hs : callback.node.Shaped) {a : Cursor} {n : Node}
    (ha : a ∈ [second, first]) (hn : n ∈ a.node.walk) :
    n.is .thisExpr = false := by
  have hatom : a.node.isAtom = true := by
    rw [Node.isAtom, Bool.or_eq_true]
    exact Or.inr (List.any_eq_true.2 ⟨_, by decide, h.names a ha⟩)
  rw [Node.walk_eq, (h.shaped hs a ha).formed.plain hatom, List.flatMap_nil,
    List.mem_singleton] at hn
  have hk : a.node.kind = .symbol .identifier := by
    simpa [Node.is] using h.names a ha
  rw [hn, Node.is, hk]
  rfl

/-- A parameter is not `this`. -/
theorem not_gone (hs : callback.node.Shaped) (hnd : callback.node.ids.Nodup)
    {gone : List Nat} (hgone : ∀ i ∈ gone, ∃ n ∈ callback.node.walk,
      n.id = some i ∧ n.is .thisExpr = true)
    {p : Kind → Bool → Bool} {i : Nat}
    (hi : i ∈ [second, first].flatMap (·.node.listed p)) : i ∉ gone := by
  intro hig
  obtain ⟨a, ha, hia⟩ := List.mem_flatMap.1 hi
  obtain ⟨x, hx, hxi, -⟩ := Node.mem_listed.1 hia
  obtain ⟨n, hn, hni, hthis⟩ := hgone i hig
  have heq := Node.eq_of_id_eq hnd hn
    (Node.mem_walk_trans (h.name_mem_walk ha) hx) hni hxi
  rw [heq, h.is_false_of_mem hs ha hx] at hthis
  cases hthis

/-- The list is not the whole of the callback. -/
theorem id_ne (hc : callback.Stands) {whole : Node}
    (hw : Node.Renews callback.node whole) (hsome : ps.node.id.isSome) :
    whole.id ≠ ps.node.id := by
  intro hid
  obtain ⟨i, hi⟩ := Option.isSome_iff_exists.1 hsome
  have heq := Node.eq_of_id_eq hc.nodup_node (Node.self_mem_walk _) h.mem
    ((hw.id.symm.trans hid).trans hi) hi
  have hlt := h.smaller
  rw [heq] at hlt
  exact Nat.lt_irrefl _ hlt

end Cursor.HoldsPair

/-- A function with two parameters is not `this`. -/
theorem Cursor.Stands.not_thisExpr (hc : callback.Stands)
    (hp : callback.unparen.simpleParameters? = some [first, second]) :
    callback.node.is .thisExpr = false := by
  rw [Bool.eq_false_iff]
  intro hthis
  obtain ⟨ps, hps⟩ := hc.exists_holdsPair hp
  have hmem := hps.mem
  rw [Node.walk_eq, hc.node.formed.plain (Node.isAtom_of_thisExpr hthis),
    List.flatMap_nil, List.mem_singleton] at hmem
  have hlt := hps.smaller
  rw [hmem] at hlt
  exact Nat.lt_irrefl _ hlt

/-- Exchanging the parameters of a callback in which at most `this` has
been replaced. -/
theorem Cursor.Stands.renews_exchanging {whole : Node} {gone : List Nat}
    (hc : callback.Stands)
    (hp : callback.unparen.simpleParameters? = some [first, second])
    (hw : Node.Renews callback.node whole)
    (hspares : Node.Spares gone callback.node whole)
    (hgone : ∀ i ∈ gone, ∃ n ∈ callback.node.walk, n.id = some i
      ∧ n.is .thisExpr = true) :
    Node.Renews whole (whole.exchanging first second) := by
  obtain ⟨ps, hps⟩ := hc.exists_holdsPair hp
  refine Node.renews_exchanging (Cursor.parent?_of_mem_children
    (hps.mem_children first (by simp))) hw.shaped (hw.nodup hc.nodup_node)
    (hps.id_ne hc hw) (hps.shaped hc.node) (hps.effects_names hc.node)
    fun m hm hsome hid => ?_
  · obtain ⟨j, hj⟩ := Option.isSome_iff_exists.1 hsome
    obtain ⟨d, hd, hdj, hnil, hlist⟩ := hspares m hm j hj
    obtain rfl : d = ps.node :=
      Node.eq_of_id_eq hc.nodup_node hd hps.mem hdj (hid ▸ hj)
    refine ⟨?_, fun h => hps.children_ne_nil (hnil h), ?_, fun p => ?_⟩
    · rw [Node.is, hw.kind hc.nodup_node hps.mem hdj hm hj]
      exact hps.is_formalParameters
    · rw [List.eq_nil_iff_forall_not_mem]
      intro i hi
      have := ((hlist isEffectKind i).1 hi).1
      rw [show ps.node.listed isEffectKind = [] from hps.effects_list hc.node]
        at this
      cases this
    · have hnd : (ps.node.listed p).Nodup :=
        (hc.nodup_node.sublist (Node.ids_sublist_of_mem_walk hps.mem)).sublist
          (Node.listed_sublist_ids p _)
      have hsub := hps.listed_subperm p
      refine List.subperm_of_subset (Workspace.nodup_of_subperm hsub hnd)
        fun i hi => ?_
      exact (hlist p i).2
        ⟨hsub.subset hi, hps.not_gone hc.node hc.nodup_node hgone hi⟩

/-- The `this` that a visitor names stands in the callback. -/
theorem Cursor.this_mem_walk (callback : Cursor) :
    ∀ n ∈ (if callback.unparen.is .arrowFunction then []
        else callback.unparen.thisReferences),
      n.node ∈ callback.node.walk ∧ n.is .thisExpr = true := by
  intro n hn
  split at hn
  · cases hn
  · obtain ⟨hown, hk⟩ := List.mem_filter.1 hn
    refine ⟨Cursor.node_mem_walk ?_, hk⟩
    exact Cursor.mem_walk_trans (Cursor.unparen_mem_walk callback)
      (mem_walkBelowUntil.1 hown).mem_walk

/-- The callback with its parameters exchanged and the element named. -/
theorem Cursor.Stands.renews_visitor {params : List Cursor}
    (hc : callback.Stands)
    (hp : callback.unparen.simpleParameters? = some params) :
    Node.Renews callback.node
      (Rules.visitor callback callback.unparen params) := by
  unfold Rules.visitor
  split
  · next index element =>
      have hthis := callback.this_mem_walk
      obtain ⟨gone, hgone, hr, hspares⟩ := Node.renews_naming element.code
        hc.nodup_node (hc.not_thisExpr hp) hthis (List.forall_mem_nil _)
        (Node.Renews.refl hc.node) (Node.Spares.refl _)
      exact hr.trans (hc.renews_exchanging hp hr hspares hgone)
  · exact Node.Renews.refl hc.node

end Codemod
