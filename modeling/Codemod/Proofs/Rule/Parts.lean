/-
What the rules write is made of parts.

Whatever form a rewrite has, its identities are those of nodes below the
expression that it replaces (`WrapperForm.below`, `IdiomForm.below`). So
the expression itself is never put back into the program
(`Step.site_not_mem`).
-/
import Codemod.Proofs.Rule.Form

namespace Codemod

open Cursor

/-- The node lies below the other. -/
def Cursor.Below (d c : Cursor) : Prop := ∃ e ∈ c.children, d ∈ e.walk

/-- Every identity in the tree is that of a node below the cursor. -/
def Node.MadeBelow (n : Node) (c : Cursor) : Prop :=
  ∀ i ∈ n.ids, ∃ d : Cursor, d.Below c ∧ i ∈ d.node.ids

variable {context : RuleContext} {names : List Text} {c d m o : Cursor}
  {name : Text} {methods : List String} {new target : Node}

namespace Cursor

theorem Below.of_mem_walk {e : Cursor} (h : d.Below c) (he : e ∈ d.walk) :
    e.Below c := by
  obtain ⟨f, hf, hd⟩ := h
  exact ⟨f, hf, mem_walk_trans hd he⟩

theorem Below.mem_walk (h : d.Below c) : d ∈ c.walk := by
  obtain ⟨e, he, hd⟩ := h
  exact mem_walk_iff.2 (Or.inr ⟨e, he, hd⟩)

theorem below_of_child? {r : Role} (h : c.child? r = some d) : d.Below c :=
  ⟨d, mem_children_of_child? h, self_mem_walk d⟩

theorem below_of_inner? {r : Role} (h : c.inner? r = some d) : d.Below c := by
  obtain ⟨e, he, rfl⟩ := inner?_eq_some.1 h
  exact (below_of_child? he).of_mem_walk (unparen_mem_walk e)

theorem below_of_mem_arguments (h : d ∈ c.arguments) : d.Below c := by
  unfold arguments at h
  split at h
  · next a ha =>
      split at h
      · exact (below_of_child? ha).of_mem_walk (mem_walk_of_mem_children
          (self_mem_walk a) (mem_children_of_mem_operands h))
      · cases h
  · cases h

theorem below_of_object (hm : c.calledMember? = some (m, name))
    (ho : m.child? .object = some o) : o.Below c :=
  (below_of_inner? (calledMember?_eq_some hm).1).of_mem_walk
    (mem_walk_of_child? ho)

theorem below_of_compares {call other : Cursor} (h : Compares c call other) :
    call.Below c ∧ other.Below c := by
  obtain ⟨l, r, hl, hr, ⟨rfl, rfl⟩ | ⟨rfl, rfl⟩⟩ := h.sides
  · exact ⟨(below_of_child? hl).of_mem_walk (unparen_mem_walk l),
      (below_of_child? hr).of_mem_walk (unparen_mem_walk r)⟩
  · exact ⟨(below_of_child? hr).of_mem_walk (unparen_mem_walk r),
      (below_of_child? hl).of_mem_walk (unparen_mem_walk l)⟩

/-- What lies below a node has other identities. -/
theorem Below.not_mem {i : Nat} (h : d.Below c) (hnd : c.node.ids.Nodup)
    (hi : c.node.id = some i) : i ∉ d.node.ids := by
  obtain ⟨e, he, hd⟩ := h
  intro hmem
  rw [Node.ids_eq, hi, Option.toList_some, List.singleton_append,
    List.nodup_cons] at hnd
  refine hnd.1 (List.mem_flatMap.2 ⟨e.node, node_mem_of_mem_children he, ?_⟩)
  exact (Node.ids_sublist_of_mem_walk (node_mem_walk hd)).subset hmem

end Cursor

namespace Node.MadeBelow

theorem of_nil (h : new.ids = []) : new.MadeBelow c := by
  intro i hi
  rw [h] at hi
  cases hi

theorem of_below (h : d.Below c) : d.node.MadeBelow c :=
  fun _ hi => ⟨d, h, hi⟩

theorem of_subset {n : Node} (hn : n.MadeBelow c) (h : ∀ i ∈ new.ids, i ∈ n.ids) :
    new.MadeBelow c :=
  fun i hi => hn i (h i hi)

/-- A tree that lists what other trees list is made of their parts. -/
theorem of_flatMap (ns : List Node) (hns : ∀ n ∈ ns, n.MadeBelow c)
    (h : ∀ p, new.listed p = ns.flatMap (Node.listed p)) : new.MadeBelow c := by
  intro i hi
  rw [Node.ids_eq_listed, h, List.mem_flatMap] at hi
  obtain ⟨n, hn, hi⟩ := hi
  exact hns n hn i (by rw [Node.ids_eq_listed]; exact hi)

theorem alike {n : Node} (hn : n.MadeBelow c)
    (h : ∀ p, new.listed p = n.listed p) : new.MadeBelow c :=
  of_flatMap [n] (List.forall_mem_singleton.2 hn) (by simpa using h)

theorem both {a b : Node} (ha : a.MadeBelow c) (hb : b.MadeBelow c)
    (h : ∀ p, new.listed p = a.listed p ++ b.listed p) : new.MadeBelow c :=
  of_flatMap [a, b] (by simpa using ⟨ha, hb⟩) (by simpa using h)

end Node.MadeBelow

theorem ElementOf.madeBelow (ho : o.Below c) (h : ElementOf context o target) :
    target.MadeBelow c := by
  cases h with
  | moved _ ha _ =>
      exact .of_below ((Cursor.below_of_mem_arguments
        (by rw [ha]; exact List.mem_singleton.2 rfl)).mem_walk |> ho.of_mem_walk)
  | lookedUp _ _ _ _ =>
      exact .of_nil (by rw [Node.ids_eq_listed, listed_elementById])
  | copied _ _ _ _ _ _ =>
      exact .of_nil (by rw [Node.ids_eq_listed, Node.listed_copy])

theorem Cursor.HasElement.madeBelow (hm : c.calledMember? = some (m, name))
    (h : m.HasElement context target) : target.MadeBelow c := by
  obtain ⟨o, ho, helement⟩ := h
  exact helement.madeBelow ((below_of_object hm ho).of_mem_walk (unparen_mem_walk o))

theorem madeBelow_argument (h : d ∈ c.arguments) : d.node.MadeBelow c :=
  .of_below (below_of_mem_arguments h)

@[simp] theorem Build.listed_path (p : Kind → Bool → Bool) (e : Node)
    (path : List Text) : (Build.path e path).listed p = e.listed p := by
  induction path generalizing e with
  | nil => rfl
  | cons t path ih =>
      rw [Build.path, List.foldl_cons]
      exact (ih (Build.member e t)).trans (Build.listed_member p e t)

/-- A callback with its parameters exchanged is made of its parts. -/
theorem Node.Renews.madeBelow {callback : Cursor} {renewed : Node}
    (h : Node.Renews callback.node renewed) (hc : callback.node.MadeBelow c) :
    renewed.MadeBelow c := by
  refine hc.of_subset fun i hi => ?_
  rw [Node.ids_eq_listed] at hi ⊢
  exact (h.listed _).subset hi

theorem MethodForm.madeBelow (hc : c.Stands) (hm : c.calledMember? = some (m, name))
    (h : MethodForm context c m name methods new) : new.MadeBelow c := by
  have one : ∀ {d}, c.arguments = [d] → d.node.MadeBelow c := fun hd =>
    madeBelow_argument (by rw [hd]; exact List.mem_singleton.2 rfl)
  have two : ∀ {d e}, c.arguments = [d, e] →
      d.node.MadeBelow c ∧ e.node.MadeBelow c := fun hd =>
    ⟨madeBelow_argument (by rw [hd]; simp), madeBelow_argument (by rw [hd]; simp)⟩
  cases h with
  | @tell _ target _ _ _ kept _ _ _ ht hkept =>
      refine .of_flatMap (target :: kept.map (·.node)) ?_ fun p => ?_
      · rw [List.forall_mem_cons, List.forall_mem_map]
        exact ⟨ht.madeBelow hm, fun d hd => madeBelow_argument (hkept.subset hd)⟩
      · simp [List.flatMap_map]
  | read _ _ _ ht => exact .alike (ht.madeBelow hm) (by simp)
  | prop _ ht => exact .alike (ht.madeBelow hm) (by simp)
  | write _ _ _ ht hv =>
      exact .both (ht.madeBelow hm) (madeBelow_argument hv) (by simp)
  | display _ _ _ ht => exact .alike (ht.madeBelow hm) (by simp)
  | computed ht => exact .alike (ht.madeBelow hm) (by simp)
  | dispatch ht hargs => exact .both (ht.madeBelow hm) (one hargs) (by simp)
  | size _ _ => exact .of_nil (by rw [Node.ids_eq_listed]; simp)
  | loaded _ _ hargs => exact .alike (one hargs) (by simp [Rules.whenLoaded])
  | neighbour _ _ ht => exact .alike (ht.madeBelow hm) (by simp [rewrap])
  | found _ ht hargs => exact .both (ht.madeBelow hm) (one hargs) (by simp [rewrap])
  | closest _ ht hargs _ =>
      exact .both (ht.madeBelow hm) (one hargs) (by simp [rewrap])
  | @siblings _ target _ ht _ _ _ =>
      refine .of_flatMap (target :: (c.arguments.head?.map (·.node)).toList) ?_
        (by simp [rewrap, Rules.listed_siblingsOf])
      rw [List.forall_mem_cons]
      refine ⟨ht.madeBelow hm, fun n hn => ?_⟩
      obtain ⟨a, ha, rfl⟩ := Option.map_eq_some_iff.1 (Option.mem_toList.1 hn)
      exact madeBelow_argument (List.mem_of_mem_head? ha)
  | remove _ ht _ => exact .alike (ht.madeBelow hm) (by simp)
  | empty _ ht _ => exact .alike (ht.madeBelow hm) (by simp)
  | insert ht hargs => exact .both (ht.madeBelow hm) (one hargs) (by simp)
  | @visit o selector callback params ho _ hsel hargs hparams =>
      have hrenews := (hc.of_mem_walk (mem_walk_of_mem_arguments (c := c)
        (by rw [hargs]; exact List.mem_singleton.2 rfl))).renews_visitor hparams
      have hreceiver : o.unparen.Below c :=
        (below_of_object hm ho).of_mem_walk (unparen_mem_walk o)
      have hselector : selector.Below c := hreceiver.of_mem_walk
        (mem_walk_of_mem_arguments (by rw [hsel]; exact List.mem_singleton.2 rfl))
      exact .both (.of_below hselector) (hrenews.madeBelow (one hargs))
        (by simp [Rules.queryAll])
  | @each _ array callback renewed _ _ hargs hrenewed =>
      refine .both (two hargs).1 (b := renewed) ?_ (by simp)
      rcases hrenewed with rfl | ⟨index, value, hp, rfl⟩
      · exact (two hargs).2
      · have hstands := hc.of_mem_walk (mem_walk_of_mem_arguments (c := c)
          (a := callback) (by rw [hargs]; simp))
        exact (hstands.renews_exchanging hp (Node.Renews.refl hstands.node)
          (Node.Spares.refl _) (List.forall_mem_nil _)).madeBelow (two hargs).2
  | grep _ _ hargs => exact .both (two hargs).1 (two hargs).2 (by simp)
  | map _ _ hargs _ => exact .both (two hargs).1 (two hargs).2 (by simp)
  | trim _ _ hargs _ => exact .alike (one hargs) (by simp)

theorem WrapperForm.madeBelow (hc : c.Stands)
    (h : WrapperForm context c methods new) : new.MadeBelow c := by
  cases h with
  | method _ hm h => exact h.madeBelow hc hm
  | @factory arg _ _ hargs h =>
      have harg : arg.node.MadeBelow c :=
        madeBelow_argument (by rw [hargs]; exact List.mem_singleton.2 rfl)
      cases h with
      | byId _ _ => exact .of_nil (by rw [Node.ids_eq_listed, listed_elementById])
      | byClass _ _ => exact .alike harg (by simp [Rules.queryAll])
      | unwrap _ _ => exact harg
      | loaded _ _ => exact .alike harg (by simp [Rules.whenLoaded])
  | inArray hcmp _ _ _ _ hargs =>
      have hcall := (below_of_compares hcmp).1
      refine .both (.of_below (hcall.of_mem_walk (mem_walk_of_mem_arguments ?_)))
        (.of_below (hcall.of_mem_walk (mem_walk_of_mem_arguments ?_)))
        fun p => (Build.listed_negatedIf ..).trans (by simp; rfl)
      · rw [hargs]
        simp
      · rw [hargs]
        simp

theorem IdiomForm.madeBelow (h : IdiomForm c new) : new.MadeBelow c := by
  cases h with
  | @power _ base exponent _ hargs =>
      exact .both (madeBelow_argument (d := base) (by rw [hargs]; simp))
        (madeBelow_argument (d := exponent) (by rw [hargs]; simp)) (by simp)
  | @slice m o _ numbers kept hm _ _ ho hkept =>
      refine .of_flatMap (o.unparen.node :: kept.map (·.node)) ?_ fun p => ?_
      · rw [List.forall_mem_cons, List.forall_mem_map]
        exact ⟨.of_below ((below_of_object hm ho).of_mem_walk (unparen_mem_walk o)),
          fun d hd => madeBelow_argument (hkept.subset hd)⟩
      · simp [List.flatMap_map, Build.number]
  | spread _ _ hargs =>
      exact .alike (madeBelow_argument (by rw [hargs]; exact List.mem_singleton.2 rfl))
        (by simp)
  | @test call other m o arg _ _ receiver _ hcmp _ hm _ _ _ ho hr hargs =>
      have hcall := (below_of_compares hcmp).1
      have ho' := hcall.of_mem_walk (below_of_object hm ho).mem_walk
      have hreceiver : receiver.MadeBelow c := by
        rcases hr with rfl | rfl
        · exact .of_below ho'
        · exact .of_below (ho'.of_mem_walk (unparen_mem_walk o))
      exact .both hreceiver (.of_below (hcall.of_mem_walk
        (mem_walk_of_mem_arguments (by rw [hargs]; exact List.mem_singleton.2 rfl))))
        (by simp)
  | @start call other m o _ _ hcmp _ hm _ ho =>
      obtain ⟨hcall, hother⟩ := below_of_compares hcmp
      have ho' := hcall.of_mem_walk (below_of_object hm ho).mem_walk
      exact .both (.of_below (ho'.of_mem_walk (unparen_mem_walk o)))
        (.of_below hother) (by simp)

/-- A built-in rule does not put back what it replaces. -/
theorem Step.site_not_mem {rule : Rule} (h : rule ∈ Registry.builtin.rules)
    {sweeps : List Sweep} (haction : rule.action = .sweeps sweeps) {s : Sweep}
    (hs : s ∈ sweeps) {k : Symbol} {w : Workspace} {r : Rewrite} {p : Cursor}
    (hstep : Step context.factoryNames k w r p)
    (hr : s.replacement context r.site = .ok (some r.new)) {i : Nat}
    (hi : r.site.node.id = some i) : i ∉ r.new.ids := by
  have hstands := hstep.sound.stands hstep.mem
  have hbelow : r.new.MadeBelow r.site := by
    rcases hstep.form h haction hs hr with ⟨-, names, hform⟩ | ⟨-, hform⟩
    · exact hform.madeBelow hstands
    · exact hform.madeBelow
  intro hmem
  obtain ⟨d, hd, hid⟩ := hbelow i hmem
  exact hd.not_mem hstands.nodup_node hi hid

end Codemod
