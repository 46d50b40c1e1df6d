/-
The rules write no carriage returns.

What a rule writes is made of nodes of the program, of texts that the
program has as names or factory calls, and of words of its own
(`WrapperForm.isUnified`, `IdiomForm.isUnified`). So a program without
carriage returns is left without any (`Rule.isUnified_apply`), and the
text that the engine returns has none if the text it was given had none
(`Engine.isUnified_of_run`).
-/
import Codemod.Proofs.Rule.Attachment
import Codemod.Proofs.Engine.Convergence
import Codemod.Proofs.Parse.Lossless

namespace Codemod

open Cursor Relation

-- ============================================================== positions

/-- The cursor stands in a tree without carriage returns. -/
structure Cursor.InUnified (c : Cursor) : Prop where
  mem_root : c ∈ c.root.walk
  root : c.root.node.IsUnified

namespace Cursor.InUnified

variable {c d : Cursor} {name : Text}

theorem node (h : c.InUnified) : c.node.IsUnified :=
  h.root.of_mem_walk (node_mem_walk h.mem_root)

theorem code (h : c.InUnified) : c.code.IsUnified := h.node.code

theorem of_mem_walk (h : c.InUnified) (hd : d ∈ c.walk) : d.InUnified := by
  have hroot : d.root = c.root := root_of_mem_walk hd
  exact ⟨hroot ▸ mem_walk_trans h.mem_root hd, hroot ▸ h.root⟩

theorem child? (h : c.InUnified) {r : Role} (hd : c.child? r = some d) : d.InUnified :=
  h.of_mem_walk (mem_walk_of_child? hd)

theorem unparen (h : c.InUnified) : c.unparen.InUnified :=
  h.of_mem_walk (unparen_mem_walk c)

theorem argument (h : c.InUnified) (hd : d ∈ c.arguments) : d.InUnified :=
  h.of_mem_walk (mem_walk_of_mem_arguments hd)

theorem resolve? (h : c.InUnified) (hd : c.resolve? name = some d) : d.InUnified := by
  have hmem := resolve?_mem_walk hd
  have hroot : d.root = c.root.root := root_of_mem_walk hmem
  have hsame : c.root.root = c.root := rfl
  rw [hsame] at hroot
  exact ⟨hroot ▸ hmem, hroot ▸ h.root⟩

/-- The name at a member access is written in the program. -/
theorem propertyName? (h : c.InUnified) (hn : c.node.propertyName? = some name) :
    name.IsUnified := by
  unfold Node.propertyName? at hn
  split at hn
  · cases hn
  · split at hn
    · next p hp =>
        split at hn
        · have hmem : p ∈ c.node.children := List.mem_of_find?_eq_some hp
          have hown := (Node.isUnified_iff.1 (h.node.of_mem_children hmem)).1
          rw [Node.own, hn, Option.getD_some] at hown
          exact (Text.IsUnified.append_iff.1 hown).2
        · cases hn
    · cases hn

theorem calledMember? {m : Cursor} (h : c.InUnified)
    (hm : c.calledMember? = some (m, name)) : m.InUnified ∧ name.IsUnified := by
  obtain ⟨hinner, hname⟩ := calledMember?_eq_some hm
  have hmu := h.of_mem_walk (below_of_inner? hinner).mem_walk
  exact ⟨hmu, hmu.propertyName? hname⟩

end Cursor.InUnified

-- ================================================================== forms

variable {context : RuleContext} {names : List Text} {c m call o : Cursor}
  {name factory : Text} {methods : List String} {new target e : Node}

namespace Build

theorem isUnified_path {path : List Text} (he : e.IsUnified)
    (hpath : ∀ t ∈ path, t.IsUnified) : (Build.path e path).IsUnified := by
  induction path generalizing e with
  | nil => exact he
  | cons t path ih =>
      rw [List.forall_mem_cons] at hpath
      exact ih (isUnified_member he hpath.1) hpath.2

theorem isUnified_identifier (h : name.IsUnified) : (identifier name).IsUnified :=
  Node.isUnified_leaf h

theorem isUnified_document : (identifier "document").IsUnified :=
  isUnified_identifier (by decide)

end Build

open Build

theorem isUnified_elementById (id : Text) : (elementById id).IsUnified :=
  isUnified_methodCall isUnified_document (by decide)
    (List.forall_mem_singleton.2 (isUnified_string id))

theorem isUnified_rewrap (hf : factory.IsUnified) (he : e.IsUnified) :
    (rewrap factory e).IsUnified :=
  isUnified_call (isUnified_identifier hf) (List.forall_mem_singleton.2 he)

namespace Rules

theorem isUnified_queryAll (he : e.IsUnified) : (queryAll e).IsUnified :=
  isUnified_methodCall isUnified_document (by decide) (List.forall_mem_singleton.2 he)

theorem isUnified_whenLoaded (he : e.IsUnified) : (whenLoaded e).IsUnified :=
  isUnified_methodCall isUnified_document (by decide)
    (List.forall_mem_cons.2 ⟨isUnified_string _, List.forall_mem_singleton.2 he⟩)

theorem isUnified_clientSize (method : Text) : (clientSize method).IsUnified := by
  rw [clientSize]
  split <;> decide

theorem isUnified_siblingsOf {selector : Option Node} (ht : target.IsUnified)
    (hs : ∀ s ∈ selector, s.IsUnified) : (siblingsOf target selector).IsUnified := by
  have hsibling : (identifier siblingName).IsUnified := isUnified_identifier (by decide)
  have hothers : (binary (identifier siblingName) "!==" target.copy).IsUnified :=
    isUnified_binary (by decide) hsibling (Node.isUnified_copy.2 ht)
  have hlisted : (memberNode (member target "parentNode")
      (propertyIdentifier "children") true).IsUnified :=
    isUnified_memberNode (isUnified_member ht (by decide))
      (Node.isUnified_leaf (by decide))
  have hchildren : (binary (memberNode (member target "parentNode")
      (propertyIdentifier "children") true) "??" (array [])).IsUnified :=
    isUnified_binary (by decide) hlisted (isUnified_array (List.forall_mem_nil _))
  refine isUnified_methodCall (isUnified_methodCall (isUnified_identifier (by decide))
    (by decide) (List.forall_mem_singleton.2 hchildren)) (by decide)
    (List.forall_mem_singleton.2
      (isUnified_arrow (List.forall_mem_singleton.2 hsibling) ?_))
  cases selector with
  | none => exact hothers
  | some s =>
      exact isUnified_binary (by decide) hothers (isUnified_methodCall hsibling
        (by decide) (List.forall_mem_singleton.2 (hs s rfl)))

end Rules

namespace Node

theorem IsUnified.replacing {whole : Node} {old : Cursor} (hw : whole.IsUnified)
    (hnew : new.IsUnified) : (whole.replacing old new).IsUnified := by
  unfold Node.replacing
  split
  · exact hw.substitute fun _ _ ho => Workspace.isUnified_fitted ho.lead hnew
  · exact hw

theorem IsUnified.exchanging {whole : Node} {first second : Cursor}
    (hw : whole.IsUnified) (hfirst : first.node.IsUnified)
    (hsecond : second.node.IsUnified) : (whole.exchanging first second).IsUnified := by
  unfold Node.exchanging
  split
  · exact hw.replacing (isUnified_formalParameters
      (List.forall_mem_cons.2 ⟨hsecond, List.forall_mem_singleton.2 hfirst⟩))
  · exact hw

end Node

/-- The parameters of a function stand in the tree of the function. -/
theorem Cursor.InUnified.pair {first second : Cursor} (h : c.InUnified)
    (hp : c.simpleParameters? = some [first, second]) :
    first.InUnified ∧ second.InUnified := by
  obtain ⟨ps, hps, hops, -, -⟩ := simpleParameters?_pair hp
  have hin : ∀ a ∈ ps.operands, a.InUnified := fun a ha => h.of_mem_walk
    (mem_walk_of_mem_children (mem_walk_of_child? hps) (mem_children_of_mem_operands ha))
  rw [hops] at hin
  exact ⟨hin _ (by simp), hin _ (by simp)⟩

theorem Cursor.InUnified.visitor {params : List Cursor} (h : c.InUnified)
    (hp : c.unparen.simpleParameters? = some params) :
    (Rules.visitor c c.unparen params).IsUnified := by
  unfold Rules.visitor
  split
  · next index element =>
      obtain ⟨hindex, helement⟩ := h.unparen.pair hp
      refine Node.IsUnified.exchanging ?_ hindex.node helement.node
      generalize (if c.unparen.is .arrowFunction = true then []
        else c.unparen.thisReferences) = thisNodes
      have hnode := h.node
      generalize c.node = whole at hnode
      induction thisNodes generalizing whole with
      | nil => exact hnode
      | cons n ns ih =>
          exact ih _ (hnode.replacing (isUnified_identifier helement.code))
  · exact h.node

-- ------------------------------------------------------- parts of wrappers

theorem WrapperOf.inUnified (h : WrapperOf names c call) (hc : c.InUnified) :
    call.InUnified := by
  cases h with
  | direct _ => exact hc.unparen
  | bound _ hinit _ => exact (hc.unparen.resolve? hinit).unparen

theorem ElementOf.isUnified (h : ElementOf context o target) (ho : o.InUnified) :
    target.IsUnified := by
  cases h with
  | moved _ ha _ =>
      exact (ho.argument (by rw [ha]; exact List.mem_singleton.2 rfl)).node
  | lookedUp _ _ _ _ => exact isUnified_elementById _
  | copied _ hinit _ ha _ _ =>
      exact Node.isUnified_copy.2 (((ho.resolve? hinit).unparen.argument
        (by rw [ha]; exact List.mem_singleton.2 rfl)).node)

theorem Cursor.HasElement.isUnified (h : m.HasElement context target)
    (hm : m.InUnified) : target.IsUnified := by
  obtain ⟨o, ho, helement⟩ := h
  exact helement.isUnified (hm.child? ho).unparen

theorem Cursor.HasFactory.isUnified (h : m.HasFactory context factory)
    (hm : m.InUnified) : factory.IsUnified := by
  obtain ⟨-, o, call, f, ho, hcall, hf, rfl⟩ := h
  exact ((hcall.inUnified (hm.child? ho).unparen).child? hf).code

-- ------------------------------------------------------------ every form

theorem MethodForm.isUnified (h : MethodForm context c m name methods new)
    (hc : c.InUnified) (hm : m.InUnified) (hname : name.IsUnified) :
    new.IsUnified := by
  have one : ∀ {d}, c.arguments = [d] → d.node.IsUnified := fun hd =>
    (hc.argument (by rw [hd]; exact List.mem_singleton.2 rfl)).node
  have two : ∀ {d e}, c.arguments = [d, e] → d.node.IsUnified ∧ e.InUnified := fun hd =>
    ⟨(hc.argument (by rw [hd]; simp)).node, hc.argument (by rw [hd]; simp)⟩
  cases h with
  | tell path words kept _ _ htexts ht hkept =>
      rw [List.forall_mem_cons] at htexts
      refine isUnified_methodCall (isUnified_path (ht.isUnified hm) htexts.2) htexts.1 ?_
      rw [List.forall_mem_append, List.forall_mem_map, List.forall_mem_map]
      exact ⟨fun w _ => isUnified_string w,
        fun d hd => (hc.argument (hkept.subset hd)).node⟩
  | read _ _ hp ht => exact isUnified_member (ht.isUnified hm) hp
  | prop hp ht => exact isUnified_member (ht.isUnified hm) hp
  | write path _ hpath ht hv =>
      exact isUnified_assignment (isUnified_path (ht.isUnified hm) hpath)
        (hc.argument hv).node
  | display path _ hpath ht =>
      exact isUnified_assignment (isUnified_path (ht.isUnified hm) hpath)
        (isUnified_string _)
  | computed ht =>
      exact isUnified_methodCall (isUnified_call (isUnified_identifier (by decide))
        (List.forall_mem_singleton.2 (ht.isUnified hm))) (by decide)
        (List.forall_mem_singleton.2 (isUnified_string _))
  | dispatch ht hargs =>
      have hoptions : (Build.object [("bubbles", Build.boolean true)]).IsUnified := by
        decide
      refine isUnified_methodCall (ht.isUnified hm) (by decide)
        (List.forall_mem_singleton.2 (isUnified_newExpression
          (isUnified_identifier (by decide)) ?_))
      exact List.forall_mem_cons.2 ⟨one hargs, List.forall_mem_singleton.2 hoptions⟩
  | size _ _ =>
      refine isUnified_path isUnified_document ?_
      exact List.forall_mem_cons.2 ⟨by decide,
        List.forall_mem_singleton.2 (Rules.isUnified_clientSize name)⟩
  | loaded _ _ hargs => exact Rules.isUnified_whenLoaded (one hargs)
  | neighbour hf hp ht =>
      exact isUnified_rewrap (hf.isUnified hm) (isUnified_member (ht.isUnified hm) hp)
  | found hf ht hargs =>
      exact isUnified_rewrap (hf.isUnified hm) (isUnified_methodCall (ht.isUnified hm)
        (by decide) (List.forall_mem_singleton.2 (one hargs)))
  | closest hf ht hargs _ =>
      exact isUnified_rewrap (hf.isUnified hm) (isUnified_methodCall (ht.isUnified hm)
        (by decide) (List.forall_mem_singleton.2 (one hargs)))
  | siblings hf ht _ _ _ =>
      refine isUnified_rewrap (hf.isUnified hm)
        (Rules.isUnified_siblingsOf (ht.isUnified hm) fun s hs => ?_)
      obtain ⟨a, ha, rfl⟩ := Option.map_eq_some_iff.1 hs
      exact (hc.argument (List.mem_of_mem_head? ha)).node
  | remove _ ht _ =>
      exact isUnified_methodCall (ht.isUnified hm) (by decide) (List.forall_mem_nil _)
  | empty _ ht _ =>
      exact isUnified_methodCall (ht.isUnified hm) (by decide) (List.forall_mem_nil _)
  | insert ht hargs =>
      exact isUnified_methodCall (ht.isUnified hm) hname
        (List.forall_mem_singleton.2 (one hargs))
  | visit ho _ hsel hargs hparams =>
      have hselector := ((hm.child? ho).unparen.argument
        (by rw [hsel]; exact List.mem_singleton.2 rfl)).node
      have hcallback := hc.argument (by rw [hargs]; exact List.mem_singleton.2 rfl)
      exact isUnified_methodCall (Rules.isUnified_queryAll hselector) (by decide)
        (List.forall_mem_singleton.2 (hcallback.visitor hparams))
  | each _ _ hargs hrenewed =>
      obtain ⟨harray, hcallback⟩ := two hargs
      refine isUnified_methodCall harray (by decide) (List.forall_mem_singleton.2 ?_)
      rcases hrenewed with rfl | ⟨index, value, hp, rfl⟩
      · exact hcallback.node
      · obtain ⟨hindex, hvalue⟩ := hcallback.unparen.pair hp
        exact hcallback.node.exchanging hindex.node hvalue.node
  | grep _ _ hargs =>
      exact isUnified_methodCall (two hargs).1 (by decide)
        (List.forall_mem_singleton.2 (two hargs).2.node)
  | map _ _ hargs _ =>
      exact isUnified_methodCall (two hargs).1 (by decide)
        (List.forall_mem_singleton.2 (two hargs).2.node)
  | trim _ _ hargs _ =>
      exact isUnified_methodCall (one hargs) (by decide) (List.forall_mem_nil _)

theorem WrapperForm.isUnified (h : WrapperForm context c methods new)
    (hc : c.InUnified) : new.IsUnified := by
  cases h with
  | method _ hm h => exact h.isUnified hc (hc.calledMember? hm).1 (hc.calledMember? hm).2
  | factory _ hargs h =>
      have harg := (hc.argument (by rw [hargs]; exact List.mem_singleton.2 rfl)).node
      cases h with
      | byId _ _ => exact isUnified_elementById _
      | byClass _ _ => exact Rules.isUnified_queryAll harg
      | unwrap _ _ => exact harg
      | loaded _ _ => exact Rules.isUnified_whenLoaded harg
  | inArray hcmp _ _ _ _ hargs =>
      have hcall := hc.of_mem_walk (below_of_compares hcmp).1.mem_walk
      have hvalue := hcall.argument (by rw [hargs]; exact List.mem_cons_self)
      have harray := hcall.argument
        (by rw [hargs]; exact List.mem_cons_of_mem _ (List.mem_singleton.2 rfl))
      exact isUnified_negatedIf (isUnified_methodCall harray.node (by decide)
        (List.forall_mem_singleton.2 hvalue.node))

theorem IdiomForm.isUnified (h : IdiomForm c new) (hc : c.InUnified) :
    new.IsUnified := by
  have object : ∀ {c m o : Cursor} {name : Text}, c.InUnified →
      c.calledMember? = some (m, name) → m.child? .object = some o → o.InUnified :=
    fun hc hm ho => (hc.calledMember? hm).1.child? ho
  cases h with
  | power _ hargs =>
      exact isUnified_binary (by decide)
        (hc.argument (by rw [hargs]; exact List.mem_cons_self)).node
        (hc.argument (by rw [hargs]; simp)).node
  | slice numbers kept hm _ hnumbers ho hkept =>
      refine isUnified_methodCall (object hc hm ho).unparen.node (by decide) ?_
      rw [List.forall_mem_append, List.forall_mem_map, List.forall_mem_map]
      exact ⟨fun t ht => Node.isUnified_leaf (hnumbers t ht),
        fun d hd => (hc.argument (hkept.subset hd)).node⟩
  | spread _ _ hargs =>
      exact isUnified_array (List.forall_mem_singleton.2 (isUnified_spread
        (hc.argument (by rw [hargs]; exact List.mem_singleton.2 rfl)).node))
  | test hcmp _ hm _ _ hmethod ho hr hargs =>
      have hcall := hc.of_mem_walk (below_of_compares hcmp).1.mem_walk
      have ho' := object hcall hm ho
      refine isUnified_negatedIf (isUnified_methodCall ?_ hmethod
        (List.forall_mem_singleton.2 (hcall.argument
          (by rw [hargs]; exact List.mem_singleton.2 rfl)).node))
      rcases hr with rfl | rfl
      · exact ho'.node
      · exact ho'.unparen.node
  | start hcmp _ hm _ ho =>
      obtain ⟨hcall, hother⟩ := below_of_compares hcmp
      exact isUnified_negatedIf (isUnified_methodCall
        (object (hc.of_mem_walk hcall.mem_walk) hm ho).unparen.node (by decide)
        (List.forall_mem_singleton.2 (hc.of_mem_walk hother.mem_walk).node))

-- ================================================================== rules

variable {rule : Rule} {w w' : Workspace}

/-- A node of a unified program. -/
theorem Cursor.inUnified_of_mem (hc : c ∈ (top w.program).walk)
    (hw : w.program.IsUnified) : c.InUnified := by
  have hroot : c.root = top w.program := root_of_mem_walk hc
  exact ⟨hroot ▸ hc, hroot ▸ hw⟩

/-- What a built-in rule writes into a unified program. -/
theorem Step.isUnified_new (h : rule ∈ Registry.builtin.rules)
    {sweeps : List Sweep} (haction : rule.action = .sweeps sweeps) {s : Sweep}
    (hs : s ∈ sweeps) {k : Symbol} {r : Rewrite} {p : Cursor}
    (hstep : Step context.factoryNames k w r p)
    (hr : s.replacement context r.site = .ok (some r.new))
    (hw : w.program.IsUnified) : r.new.IsUnified := by
  have hsite := inUnified_of_mem hstep.mem hw
  rcases hstep.form h haction hs hr with ⟨-, names, hform⟩ | ⟨-, hform⟩
  · exact hform.isUnified hsite
  · exact hform.isUnified hsite

theorem Workspace.isUnified_splice {parent old : Node} (hw : w.program.IsUnified)
    (ho : old.lead.IsUnified) (hnew : new.IsUnified) :
    (w.splice parent old new).program.IsUnified := by
  unfold splice
  split
  · exact hw
  · exact hw.substitute fun _ _ _ => Node.isUnified_number.2 (isUnified_fitted ho hnew)

theorem SweepsTurn.isUnified (h : rule ∈ Registry.builtin.rules)
    {sweeps : List Sweep} (haction : rule.action = .sweeps sweeps) {k : Symbol}
    (hturn : SweepsTurn sweeps k context w w') (hw : w.program.IsUnified) :
    w'.program.IsUnified := by
  obtain ⟨s, hs, ⟨hstep, hr⟩⟩ := hturn
  exact Workspace.isUnified_splice hw (inUnified_of_mem hstep.mem hw).node.lead
    (hstep.isUnified_new h haction hs hr hw)

/-- A child that is dropped leaves its lead to the child behind it. -/
theorem Node.isUnified_dropHandingLead {t : Nat} {cs : List Node}
    (h : ∀ c ∈ cs, c.IsUnified) : ∀ d ∈ dropHandingLead t cs, d.IsUnified := by
  induction cs with
  | nil => exact List.forall_mem_nil _
  | cons c cs ih =>
      rw [List.forall_mem_cons] at h
      rw [dropHandingLead_cons]
      split
      · cases cs with
        | nil => exact List.forall_mem_nil _
        | cons d ds =>
            have hds := List.forall_mem_cons.1 h.2
            exact List.forall_mem_cons.2 ⟨hds.1.placed h.1.lead, hds.2⟩
      · exact List.forall_mem_cons.2 ⟨h.1, ih h.2⟩

theorem Rules.isUnified_dropUseStrict {is : List Nat} {changed : Bool}
    (hw : w.program.IsUnified) :
    (dropUseStrict is changed w).1.program.IsUnified := by
  induction is generalizing changed w with
  | nil => exact hw
  | cons i is ih =>
      rw [dropUseStrict]
      split
      · exact ih hw
      · next n hn =>
          split
          · exact ih hw
          · split
            · exact hw
            · refine ih ?_
              unfold dropStatement
              split
              · exact hw
              · exact hw.with_children
                  (Node.isUnified_dropHandingLead fun c hc => hw.of_mem_children hc)
            · split
              · exact ih hw
              · exact hw

/-- A built-in rule leaves a unified program unified, also when it
fails. -/
theorem Rule.isUnified_apply (h : rule ∈ Registry.builtin.rules) (hs : w.Sound)
    (hw : w.program.IsUnified) : (rule.apply context w).1.program.IsUnified := by
  rcases Rule.keeps_of_mem h with ⟨k, hk, sweeps, haction, hsweeps⟩ | rfl
  · have hreached : ReflTransGen (SweepsTurn sweeps k context) w
        (rule.apply context w).1 := (Rule.apply_spec haction hk hsweeps hs).reached
    generalize (rule.apply context w).1 = v at hreached ⊢
    induction hreached with
    | refl => exact hw
    | tail _ hturn ih => exact hturn.isUnified h haction ih
  · rw [Rule.apply, show Rules.useStrict.action = .onProgram Rules.relaxModule from rfl]
    simp only [Rules.relaxModule]
    split
    · exact hw
    · exact Rules.isUnified_dropUseStrict hw

-- ================================================================= engine

namespace Engine

variable {engine : Engine} {source code start current : Text}

theorem isUnified_of_applyRules {rules : List Rule} {names : List String}
    (hrules : ∀ r ∈ rules, r ∈ Registry.builtin.rules)
    (h : applyRules context rules w = .ok (names, w')) (hw : w.Distinct)
    (hu : w.program.IsUnified) : w'.program.IsUnified := by
  induction rules generalizing w names with
  | nil =>
      obtain ⟨-, rfl⟩ := Prod.mk.inj (Except.ok.inj h)
      exact hu
  | cons r rs ih =>
      rw [List.forall_mem_cons] at hrules
      have hnext : (r.apply context w).1.Distinct := Rule.distinct_apply hrules.1 hw
      have hun : (r.apply context w).1.program.IsUnified :=
        Rule.isUnified_apply hrules.1 hw.sound hu
      rw [applyRules] at h
      split at h
      · cases h
      · next v changed hr =>
          rw [hr] at hnext hun
          split at h
          · cases h
          · next made last hrest =>
              obtain ⟨-, rfl⟩ := Prod.mk.inj (Except.ok.inj h)
              exact ih hrules.2 hrest hnext hun

/-- A pass over a text without carriage returns makes one. -/
theorem isUnified_of_runPass {next : Text} {names : List String}
    (hrules : ∀ r ∈ engine.rules, r ∈ Registry.builtin.rules)
    (h : engine.runPass current = .ok (next, names)) (hu : current.IsUnified) :
    next.IsUnified := by
  unfold runPass at h
  split at h
  · cases h
  · next n hn =>
      split at h
      · cases h
      · obtain ⟨rfl, -⟩ := Prod.mk.inj (Except.ok.inj h)
        exact hu
      · next made w _ hw =>
          obtain ⟨rfl, -⟩ := Prod.mk.inj (Except.ok.inj h)
          have hn' : n.IsUnified := Node.isUnified_of_render (parse_sound hn).shaped
            (by rwa [render_of_parse hn])
          exact (isUnified_of_applyRules hrules hw
            (Workspace.distinct_ofProgram hn) hn').render

theorem isUnified_of_runFrom {left passes : Nat} {applied : List String}
    {r : TransformResult} (hrules : ∀ r ∈ engine.rules, r ∈ Registry.builtin.rules)
    (h : engine.runFrom start left passes current applied = .ok r)
    (hu : current.IsUnified) : r.code.IsUnified := by
  induction left generalizing passes current applied with
  | zero =>
      obtain rfl := Except.ok.inj h
      exact hu
  | succ left ih =>
      obtain ⟨next, names, hp, ⟨-, rfl⟩ | ⟨-, h⟩⟩ := runFrom_cases h
      · exact hu
      · exact ih h (isUnified_of_runPass hrules hp hu)

/-- The engine puts no carriage return into a text that has none. -/
theorem isUnified_of_run {r : TransformResult}
    (hrules : ∀ r ∈ engine.rules, r ∈ Registry.builtin.rules)
    (h : engine.run source = .ok r) (hu : source.IsUnified) : r.code.IsUnified :=
  isUnified_of_runFrom hrules h hu

end Engine

end Codemod
