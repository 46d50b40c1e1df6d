/-
Tests that a rewrite leaves passed.

What a rule writes is built of nodes below the expression that it
replaces, and of new ones. A test that is lenient on new nodes is passed
throughout by what is written for a call of the factory, if it was passed
before (`FactoryForm.every`). Inside of callbacks names and lists of
parameters are exchanged; a test that takes no notice of that either
(`Node.Steady`) is passed by all that the rules write, save that an
assignment has to pass it on its own (`WrapperForm.every`,
`IdiomForm.every`).
-/
import Codemod.Proofs.Rule.Spending

namespace Codemod

open Cursor Node

namespace Node

variable {Q : Node → Prop} {n : Node} {i : Nat} {f : Node → Node → Node}

-- ============================================================= references

/-- In a name or `this` there are leaves and parentheses. -/
theorem children_nil_or_of_isReference (hs : n.Shaped) (h : n.isReference = true) :
    ∀ m ∈ n.walk, m.children = [] ∨ m.is .parenthesizedExpression = true := by
  induction n using Node.ind with
  | h n ih =>
      have hleaf : ∀ {c : Node}, c.children = [] → ∀ m ∈ c.walk, m.children = [] := by
        intro c hc m hm
        rw [walk_eq, hc] at hm
        rwa [List.mem_singleton.1 hm]
      by_cases hone : n.is .parenthesizedExpression = true ∧ ∃ d, n.operands = [d]
      · obtain ⟨hk, d, hd⟩ := hone
        have hd' : d.isReference = true := by
          rwa [isReference, strip_of_operands hk hd] at h
        intro m hm
        rcases mem_walk_iff.1 hm with rfl | ⟨c, hc, hm⟩
        · exact Or.inr hk
        · cases hop : c.isOperand with
          | true =>
              have hcd : c ∈ n.operands := List.mem_filter.2 ⟨hc, hop⟩
              rw [hd, List.mem_singleton] at hcd
              subst hcd
              exact ih c hc (hs.of_mem_children hc) hd' m hm
          | false =>
              refine Or.inl (hleaf ((hs.of_mem_children hc).formed.plain ?_) m hm)
              rw [isAtom, hop]
              rfl
      · have hself : n.strip = n := strip_of_no_operand fun hk d hd => hone ⟨hk, d, hd⟩
        rw [isReference, hself] at h
        obtain ⟨s, hmem, hk⟩ := List.any_eq_true.1 h
        have hatom : ∀ s ∈ [Symbol.identifier, .thisExpr], s ∈ atomSymbols := by decide
        refine fun m hm => Or.inl (hleaf (hs.formed.plain ?_) m hm)
        rw [isAtom, Bool.or_eq_true]
        exact Or.inr (List.any_eq_true.2 ⟨s, hatom s hmem, hk⟩)

/-- A copy of a name or `this` is new. -/
theorem Lenient.every_copy (h : Lenient Q) (hs : n.Shaped) (href : n.isReference = true) :
    n.copy.Every Q := by
  have hids : n.copy.ids = [] := by rw [ids_eq_listed, listed_copy]
  intro m hm
  refine h.built m ?_ ?_
  · rw [Option.eq_none_iff_forall_ne_some]
    intro i hi
    have hmem : i ∈ n.copy.ids := mem_ids.2 ⟨m, hm, hi⟩
    rw [hids] at hmem
    cases hmem
  · exact (children_nil_or_of_isReference (shaped_copy.2 hs)
      ((isReference_copy n).trans href) m hm).imp_right
      fun hk => isNotable_false_of_kind hk (by decide)

-- ================================================================== steady

/-- Instead of `this` there is a name, instead of a list of parameters
another one. -/
structure Swaps (i : Nat) (f : Node → Node → Node) (n : Node) : Prop where
  old : ∀ d ∈ n.walk, d.id = some i → d.isAny [.thisExpr, .formalParameters] = true
  new : ∀ q, ∀ d ∈ n.walk, d.id = some i →
    (f q d).isAny [.identifier, .formalParameters, .parenthesizedExpression] = true
  role : ∀ q, ∀ d ∈ n.walk, d.id = some i → (f q d).role = d.role

theorem Swaps.of_mem_walk {d : Node} (h : n.Swaps i f) (hd : d ∈ n.walk) : d.Swaps i f :=
  ⟨fun e he => h.old e (mem_walk_trans hd he), fun q e he => h.new q e (mem_walk_trans hd he),
    fun q e he => h.role q e (mem_walk_trans hd he)⟩

/-- The test is lenient, also on new functions, and takes no notice of names
and lists of parameters. -/
structure Steady (Q : Node → Prop) : Prop extends Lenient Q where
  arrow : ∀ (params : List Node) (body : Node), Q (Build.arrow params body)
  swapped : ∀ {n : Node} {i : Nat} {f : Node → Node → Node}, n.Swaps i f → Q n →
    Q (n.substitute i f)

/-- What is called in a place is called there whatever else is replaced. -/
theorem steady_keepsCall {names : List String} {j : Nat} : Steady (KeepsCall names j) where
  toLenient := lenient_keepsCall
  arrow _ _ := nofun
  swapped hswaps h := by
    refine keepsCall_substitute ⟨fun d hd hid => ?_, hswaps.role⟩ h
    obtain ⟨s, hs, hk⟩ := List.any_eq_true.1 (hswaps.old d hd hid)
    have hplain : ∀ s ∈ [Symbol.thisExpr, .formalParameters],
        s ∉ [Symbol.memberExpression, .parenthesizedExpression, .propertyIdentifier] := by
      decide
    exact isOther_of_kind hk (hplain s hs)

namespace Steady

variable (h : Steady Q) {base whole new : Node} {old : Cursor}
include h

theorem every_replacing (hw : whole.Every Q)
    (hne : old.node.id.isSome → whole.id ≠ old.node.id)
    (hold : ∀ d ∈ whole.walk, d.id.isSome → d.id = old.node.id →
      d.isAny [.thisExpr, .formalParameters] = true)
    (hkind : new.isAny [.identifier, .formalParameters] = true) (hnew : new.Every Q) :
    (whole.replacing old new).Every Q := by
  unfold replacing
  cases hid : old.node.id with
  | none => exact hw
  | some i =>
      rw [hid] at hne hold
      have hswaps : whole.Swaps i fun p o => Workspace.fitted p o new := by
        refine ⟨fun d hd hi => hold d hd (by rw [hi]; rfl) hi, fun q d _ _ => ?_,
          fun q d _ _ => Workspace.role_fitted q d new⟩
        obtain ⟨s, hs, hk⟩ := List.any_eq_true.1 hkind
        unfold Workspace.fitted
        split
        · rfl
        · have hsub : ∀ s ∈ [Symbol.identifier, .formalParameters],
              s ∈ [Symbol.identifier, .formalParameters, .parenthesizedExpression] := by
            decide
          exact List.any_eq_true.2 ⟨s, hsub s hs, hk⟩
      exact every_substitute (hne rfl) hw
        (fun m hm _ => h.swapped (hswaps.of_mem_walk hm)) fun q d _ _ => h.every_fitted hnew

theorem every_naming {thisNodes : List Cursor} (name : Text)
    (hnd : base.ids.Nodup) (hbase : base.is .thisExpr = false)
    (hthis : ∀ n ∈ thisNodes, n.node ∈ base.walk ∧ n.is .thisExpr = true)
    (hr : Renews base whole) (hw : whole.Every Q) :
    (thisNodes.foldl (fun w n => w.replacing n (Build.identifier name)) whole).Every Q := by
  induction thisNodes generalizing whole with
  | nil => exact hw
  | cons n ns ih =>
      rw [List.forall_mem_cons] at hthis
      obtain ⟨⟨hn, hk⟩, hthis⟩ := hthis
      refine ih hthis (hr.naming name hnd hbase hn hk) (h.every_replacing hw
        (hr.id_ne_thisExpr hnd hbase hn hk) (fun d hd hsome hid => ?_) rfl
        h.every_identifier)
      exact List.any_eq_true.2 ⟨_, List.mem_cons_self,
        hr.is_thisExpr hnd hn hk hd hsome hid⟩

variable {callback first second : Cursor}

/-- The parameters of a callback are exchanged. -/
theorem every_exchanging (hc : callback.Stands)
    (hp : callback.unparen.simpleParameters? = some [first, second])
    (hr : Renews callback.node whole) (hbase : callback.node.Every Q) (hw : whole.Every Q) :
    (whole.exchanging first second).Every Q := by
  obtain ⟨ps, hps⟩ := hc.exists_holdsPair hp
  have hnames : ∀ a ∈ [second, first], a.node.Every Q := fun a ha =>
    hbase.of_mem_walk (hps.name_mem_walk ha)
  rw [exchanging, parent?_of_mem_children (hps.mem_children first (by simp))]
  refine h.every_replacing hw (hps.id_ne hc hr) (fun d hd hsome hid => ?_) rfl ?_
  · obtain ⟨i, hi⟩ := Option.isSome_iff_exists.1 hsome
    have hkind := hr.kind hc.nodup_node hps.mem (hid ▸ hi) hd hi
    refine List.any_eq_true.2 ⟨.formalParameters, by decide, ?_⟩
    rw [Node.is, hkind]
    exact hps.is_formalParameters
  · refine h.every_bracketed (by decide) ?_
    rw [List.forall_mem_cons, List.forall_mem_singleton]
    exact ⟨hnames second (by simp), hnames first (by simp)⟩

theorem every_visitor {params : List Cursor} (hc : callback.Stands)
    (hp : callback.unparen.simpleParameters? = some params) (hw : callback.node.Every Q) :
    (Rules.visitor callback callback.unparen params).Every Q := by
  unfold Rules.visitor
  split
  · next index element =>
      have hthis := callback.this_mem_walk
      have hrefl := Renews.refl hc.node
      obtain ⟨-, -, hr, -⟩ := renews_naming element.code hc.nodup_node
        (hc.not_thisExpr hp) hthis (List.forall_mem_nil _) hrefl (Spares.refl _)
      exact h.every_exchanging hc hp hr hw
        (h.every_naming element.code hc.nodup_node (hc.not_thisExpr hp) hthis hrefl hw)
  · exact hw

end Steady

end Node

-- =================================================================== forms

section Forms

variable {Q : Node → Prop} {context : RuleContext} {c m o arg : Cursor} {name : Text}
  {methods : List String} {new target : Node}

theorem Node.Lenient.every_elementById (h : Lenient Q) (i : Text) :
    (elementById i).Every Q :=
  h.every_methodCall h.every_identifier (List.forall_mem_singleton.2 h.every_string)

theorem ElementOf.every (hQ : Lenient Q) (hos : o.Stands) (ho : o.node.Every Q)
    (h : ElementOf context o target) : target.Every Q := by
  have hshaped := h.shaped hos
  cases h with
  | moved _ ha _ =>
      exact ho.of_cursor (mem_walk_of_mem_arguments (c := o)
        (by rw [ha]; exact List.mem_singleton.2 rfl))
  | lookedUp _ _ _ _ => exact hQ.every_elementById _
  | copied _ _ _ _ helement hstable =>
      exact hQ.every_copy (shaped_copy.1 hshaped)
        (isReference_of_isStableAt helement hstable)

theorem Node.Steady.every_siblingsOf {selector : Option Node} (hQ : Steady Q)
    (hs : target.Shaped) (href : target.isReference = true) (ht : target.Every Q)
    (hselector : ∀ s ∈ selector, s.Every Q) :
    (Rules.siblingsOf target selector).Every Q := by
  have hothers : (Build.binary (Build.identifier Rules.siblingName) "!=="
      target.copy).Every Q :=
    hQ.every_binary hQ.every_identifier (hQ.every_copy hs href)
  refine hQ.every_methodCall (hQ.every_methodCall hQ.every_identifier ?_) ?_
  · rw [List.forall_mem_singleton]
    exact hQ.every_binary (hQ.every_memberNode (hQ.every_member ht) hQ.every_leaf)
      (hQ.every_bracketed (by decide) (List.forall_mem_nil _))
  · rw [List.forall_mem_singleton]
    refine hQ.every_arrow (hQ.arrow _ _) (List.forall_mem_singleton.2 hQ.every_identifier) ?_
    cases selector with
    | none => exact hothers
    | some s =>
        exact hQ.every_binary hothers (hQ.every_methodCall hQ.every_identifier
          (List.forall_mem_singleton.2 (hselector s rfl)))

/-- What assigns a value assigns it to an element, or to a part of one. -/
theorem MethodForm.exists_assignment (h : MethodForm context c m name methods new)
    (hk : new.is .assignmentExpression = true) : ∃ target path value,
      m.HasElement context target ∧ new = Build.assignment (Build.path target path) value := by
  cases h with
  | write path _ _ ht _ => exact ⟨_, path, _, ht, rfl⟩
  | display path _ _ ht => exact ⟨_, path, _, ht, rfl⟩
  | _ => exact absurd hk Bool.false_ne_true

/-- What is written for a method call passes a steady test. -/
theorem MethodForm.every (hQ : Steady Q) (hc : c.Stands)
    (hm : c.calledMember? = some (m, name)) (h : MethodForm context c m name methods new)
    (hsite : c.node.Every Q) (hassign : new.is .assignmentExpression = true → Q new) :
    new.Every Q := by
  have hobject : ∀ {o}, m.child? .object = some o → o.unparen ∈ c.walk := fun ho =>
    ((below_of_object hm ho).of_mem_walk (unparen_mem_walk _)).mem_walk
  have htarget : ∀ {target}, m.HasElement context target → target.Every Q := by
    rintro target ⟨o, ho, helement⟩
    exact helement.every hQ.toLenient (hc.of_mem_walk (hobject ho))
      (hsite.of_cursor (hobject ho))
  have harg : ∀ d ∈ c.arguments, d.node.Every Q := fun d hd =>
    hsite.of_cursor (mem_walk_of_mem_arguments hd)
  have hone : ∀ {d}, c.arguments = [d] → ∀ e ∈ [d.node], e.Every Q := fun hd =>
    List.forall_mem_singleton.2 (harg _ (by rw [hd]; exact List.mem_singleton.2 rfl))
  have htwo : ∀ {d e}, c.arguments = [d, e] → d.node.Every Q ∧ e.node.Every Q := fun hd =>
    ⟨harg _ (by rw [hd]; simp), harg _ (by rw [hd]; simp)⟩
  cases h with
  | @tell _ _ _ path words kept _ _ _ ht hkept =>
      refine hQ.every_methodCall (hQ.every_path (htarget ht)) ?_
      rw [List.forall_mem_append, List.forall_mem_map, List.forall_mem_map]
      exact ⟨fun _ _ => hQ.every_string, fun d hd => harg d (hkept.subset hd)⟩
  | read _ _ _ ht => exact hQ.every_member (htarget ht)
  | prop _ ht => exact hQ.every_member (htarget ht)
  | write _ _ _ ht hv =>
      exact hQ.every_assignment (hassign rfl) (hQ.every_path (htarget ht)) (harg _ hv)
  | display _ _ _ ht =>
      exact hQ.every_assignment (hassign rfl) (hQ.every_path (htarget ht)) hQ.every_string
  | computed ht =>
      exact hQ.every_methodCall (hQ.every_call hQ.every_identifier
        (List.forall_mem_singleton.2 (htarget ht)))
        (List.forall_mem_singleton.2 hQ.every_string)
  | dispatch ht hargs =>
      refine hQ.every_methodCall (htarget ht) (List.forall_mem_singleton.2
        (hQ.every_newExpression hQ.every_identifier ?_))
      rw [List.forall_mem_cons, List.forall_mem_singleton]
      exact ⟨List.forall_mem_singleton.1 (hone hargs), hQ.every_object hQ.every_boolean⟩
  | size _ _ => exact hQ.every_path hQ.every_identifier
  | loaded _ _ hargs =>
      refine hQ.every_methodCall hQ.every_identifier ?_
      rw [List.forall_mem_cons]
      exact ⟨hQ.every_string, hone hargs⟩
  | neighbour _ _ ht =>
      exact hQ.every_call hQ.every_identifier
        (List.forall_mem_singleton.2 (hQ.every_member (htarget ht)))
  | found _ ht hargs =>
      exact hQ.every_call hQ.every_identifier
        (List.forall_mem_singleton.2 (hQ.every_methodCall (htarget ht) (hone hargs)))
  | closest _ ht hargs _ =>
      exact hQ.every_call hQ.every_identifier
        (List.forall_mem_singleton.2 (hQ.every_methodCall (htarget ht) (hone hargs)))
  | @siblings _ target _ ht _ _ href =>
      have hshaped : target.Shaped := by
        obtain ⟨o, ho, helement⟩ := ht
        exact helement.shaped (hc.of_mem_walk (hobject ho))
      refine hQ.every_call hQ.every_identifier (List.forall_mem_singleton.2
        (hQ.every_siblingsOf hshaped href (htarget ht) ?_))
      intro s hs
      obtain ⟨a, ha, rfl⟩ := Option.map_eq_some_iff.1 hs
      exact harg a (List.mem_of_mem_head? ha)
  | remove _ ht _ => exact hQ.every_methodCall (htarget ht) (List.forall_mem_nil _)
  | empty _ ht _ => exact hQ.every_methodCall (htarget ht) (List.forall_mem_nil _)
  | insert ht hargs => exact hQ.every_methodCall (htarget ht) (hone hargs)
  | @visit o selector callback params ho _ hsel hargs hparams =>
      have hselector : selector ∈ o.unparen.arguments := by
        rw [hsel]
        exact List.mem_singleton.2 rfl
      have hstands := hc.of_mem_walk (mem_walk_of_mem_arguments (c := c)
        (by rw [hargs]; exact List.mem_singleton.2 rfl))
      refine hQ.every_methodCall (hQ.every_methodCall hQ.every_identifier ?_) ?_
      · rw [List.forall_mem_singleton]
        exact (hsite.of_cursor (hobject ho)).of_cursor (mem_walk_of_mem_arguments hselector)
      · rw [List.forall_mem_singleton]
        exact hQ.every_visitor hstands hparams (List.forall_mem_singleton.1 (hone hargs))
  | @each _ array callback renewed _ _ hargs hrenewed =>
      obtain ⟨harray, hcallback⟩ := htwo hargs
      refine hQ.every_methodCall harray (List.forall_mem_singleton.2 ?_)
      rcases hrenewed with rfl | ⟨index, value, hp, rfl⟩
      · exact hcallback
      · have hstands := hc.of_mem_walk (mem_walk_of_mem_arguments (c := c)
          (a := callback) (by rw [hargs]; simp))
        exact hQ.every_exchanging hstands hp (Renews.refl hstands.node) hcallback hcallback
  | grep _ _ hargs =>
      exact hQ.every_methodCall (htwo hargs).1 (List.forall_mem_singleton.2 (htwo hargs).2)
  | map _ _ hargs _ =>
      exact hQ.every_methodCall (htwo hargs).1 (List.forall_mem_singleton.2 (htwo hargs).2)
  | trim _ _ hargs _ =>
      exact hQ.every_methodCall (List.forall_mem_singleton.1 (hone hargs))
        (List.forall_mem_nil _)

/-- What is written for a call of the factory passes a lenient test. -/
theorem FactoryForm.every (hQ : Lenient Q) (ha : c.arguments = [arg])
    (h : FactoryForm context c arg new) (hsite : c.node.Every Q) : new.Every Q := by
  have harg : arg.node.Every Q := hsite.of_cursor
    (mem_walk_of_mem_arguments (by rw [ha]; exact List.mem_singleton.2 rfl))
  cases h with
  | byId _ _ => exact hQ.every_elementById _
  | byClass _ _ =>
      exact hQ.every_methodCall hQ.every_identifier (List.forall_mem_singleton.2 harg)
  | unwrap _ _ => exact harg
  | loaded _ _ =>
      refine hQ.every_methodCall hQ.every_identifier ?_
      rw [List.forall_mem_cons, List.forall_mem_singleton]
      exact ⟨hQ.every_string, harg⟩

/-- What the rules for wrappers write passes a steady test. -/
theorem WrapperForm.every (hQ : Steady Q) (hc : c.Stands)
    (h : WrapperForm context c methods new) (hsite : c.node.Every Q)
    (hassign : new.is .assignmentExpression = true → Q new) : new.Every Q := by
  cases h with
  | method _ hm hform => exact hform.every hQ hc hm hsite hassign
  | factory _ ha hform => exact hform.every hQ.toLenient ha hsite
  | inArray hcmp _ _ _ _ hargs =>
      have hcall := hsite.of_cursor (below_of_compares hcmp).1.mem_walk
      have harg : ∀ d : Cursor, d ∈ _ → d.node.Every Q := fun d hd =>
        hcall.of_cursor (mem_walk_of_mem_arguments hd)
      rw [hargs, List.forall_mem_cons, List.forall_mem_singleton] at harg
      exact hQ.every_negatedIf (hQ.every_methodCall harg.2
        (List.forall_mem_singleton.2 harg.1))

/-- So does what the rules for older idioms write. -/
theorem IdiomForm.every (hQ : Lenient Q) (h : IdiomForm c new) (hsite : c.node.Every Q) :
    new.Every Q := by
  have harg : ∀ {d : Cursor}, d ∈ c.walk → ∀ a ∈ d.arguments, a.node.Every Q :=
    fun hd a ha => hsite.of_cursor (mem_walk_trans hd (mem_walk_of_mem_arguments ha))
  cases h with
  | power _ hargs =>
      have hcs := harg (self_mem_walk c)
      rw [hargs, List.forall_mem_cons, List.forall_mem_singleton] at hcs
      exact hQ.every_binary hcs.1 hcs.2
  | slice numbers kept hm _ _ ho hkept =>
      refine hQ.every_methodCall (hsite.of_cursor
        ((below_of_object hm ho).of_mem_walk (unparen_mem_walk _)).mem_walk) ?_
      rw [List.forall_mem_append, List.forall_mem_map, List.forall_mem_map]
      exact ⟨fun _ _ => hQ.every_leaf, fun d hd =>
        harg (self_mem_walk c) d (hkept.subset hd)⟩
  | spread _ _ hargs =>
      have hcs := harg (self_mem_walk c)
      rw [hargs, List.forall_mem_singleton] at hcs
      exact hQ.every_bracketed (by decide) (List.forall_mem_singleton.2 (hQ.every_spread hcs))
  | test hcmp _ hm _ _ _ ho hreceiver hargs =>
      have hcall := (below_of_compares hcmp).1.mem_walk
      have hobject := mem_walk_trans hcall (below_of_object hm ho).mem_walk
      have hcs := harg hcall
      rw [hargs, List.forall_mem_singleton] at hcs
      refine hQ.every_negatedIf (hQ.every_methodCall ?_ (List.forall_mem_singleton.2 hcs))
      rcases hreceiver with rfl | rfl
      · exact hsite.of_cursor hobject
      · exact hsite.of_cursor (mem_walk_trans hobject (unparen_mem_walk _))
  | start hcmp _ hm _ ho =>
      have hcall := (below_of_compares hcmp).1.mem_walk
      have hobject := mem_walk_trans hcall (below_of_object hm ho).mem_walk
      exact hQ.every_negatedIf (hQ.every_methodCall
        (hsite.of_cursor (mem_walk_trans hobject (unparen_mem_walk _)))
        (List.forall_mem_singleton.2
          (hsite.of_cursor (below_of_compares hcmp).2.mem_walk)))

end Forms

end Codemod
