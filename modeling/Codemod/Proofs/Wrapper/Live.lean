/-
Rules for wrappers need a live factory.

An identifier is live when its name is one of the factory's and still
means the factory where it stands (`Cursor.IsLive`). However a rule gets
at a wrapper, it does so through such an identifier: the function of a
call of the factory, or the object of one of its functions
(`Cursor.Through`, `WrapperForm.through_live`). So where none is live the
rules for wrappers change nothing, and no call is rewritten that is made
through a name which the program writes without declaring it
(`Cursor.IsLive.declared_or_unwritten`).

What is live is asked of the program as it stands when the rewrite is
made. A write that an earlier rewrite has left out, with the template of
a tagged call, does not count any more
(`Rules.showHide_forgets_write`).
-/
import Codemod.Proofs.Rule.Form

namespace Codemod

namespace Cursor

variable {names : List Text} {c d f m o : Cursor} {name : Text}

/-- The identifier has a name of the factory and means the factory. -/
structure IsLive (names : List Text) (d : Cursor) : Prop where
  kind : d.is .identifier = true
  named : d.code ∈ names
  means : d.meansFactory names d.code = .ok true

/-- A call is made through an identifier: the identifier is its function,
the object of its method, or the function of the call that made the
wrapper which its method is called on. A comparison is made through what
its sides are made through. -/
inductive Through : Cursor → Cursor → Prop where
  | function {c f : Cursor} : c.unparen.child? .function = some f →
    Through c f
  | object {c m o : Cursor} : c.inner? .function = some m →
    m.child? .object = some o → Through c o.unparen
  | receiver {c m o f : Cursor} : c.inner? .function = some m →
    m.child? .object = some o → o.unparen.child? .function = some f →
    Through c f
  | alias {c m o init f : Cursor} : c.inner? .function = some m →
    m.child? .object = some o →
    o.unparen.resolve? o.unparen.code = some init →
    init.unparen.child? .function = some f → Through c f
  | side {c call other f : Cursor} : Compares c call other →
    Through call f → Through c f

-- ================================================= meaning at the callee

/-- Between a call and its function no name changes its meaning. -/
theorem meansFactory_of_child? {r : Role} (hk : c.is .callExpression = true)
    (hd : c.child? r = some d) (hdk : d.is .identifier = true) :
    d.meansFactory names name = c.meansFactory names name := by
  have hmem := mem_children_of_child? hd
  have hanc := ancestors_of_mem_children hmem
  have hroot := root_of_mem_children hmem
  have hck : c.node.kind = .symbol .callExpression := by
    simpa [is, Node.is] using hk
  have hdk' : d.node.kind = .symbol .identifier := by
    simpa [is, Node.is] using hdk
  have hwith : d.inWith = c.inWith := by
    rw [inWith, inWith, hanc, List.any_cons]
    simp [is, Node.is, hck]
  have hscope : d.scopeChain = c.scopeChain := by
    have hd' : d.isScope = false := by
      simp [isScope, isFunction, Node.isFunction, isAny, Node.isAny, is, Node.is,
        hdk', functionSymbols, blockScopeSymbols]
    have hc' : c.isScope = false := by
      simp [isScope, isFunction, Node.isFunction, isAny, Node.isAny, is, Node.is,
        hck, functionSymbols, blockScopeSymbols]
    rw [scopeChain, scopeChain, hanc]
    simp [hd', hc']
  have hbinding : d.binding? name = c.binding? name := by
    rw [binding?, binding?, hscope, declarationsOf, declarationsOf, hroot]
  rw [meansFactory, meansFactory, meansFactoryWithin, meansFactoryWithin, hwith,
    hbinding, hroot]

theorem isLive_of_isFactoryCall (h : c.isFactoryCall names = .ok true) :
    ∃ f, c.unparen.child? .function = some f ∧ f.IsLive names := by
  obtain ⟨f, hf, hk, hmem, hmeans⟩ := isFactoryCall_callee h
  refine ⟨f, hf, hk, hmem, ?_⟩
  rw [meansFactory_of_child? (isFactoryCall_spec h).1 hf hk]
  exact hmeans

theorem isLive_of_isFactoryIdentifier
    (h : c.isFactoryIdentifier names = .ok true) : c.unparen.IsLive names := by
  unfold isFactoryIdentifier at h
  simp only at h
  split at h
  · next hk =>
      simp only [Bool.and_eq_true, List.contains_iff_mem] at hk
      exact ⟨hk.1, hk.2, h⟩
  · cases h

theorem lookUp_nil (ss : List Cursor) : lookUp [] ss = none := by
  induction ss with
  | nil => rfl
  | cons s ss ih => exact ih

/-- A live name is declared in the file, or written nowhere. -/
theorem IsLive.declared_or_unwritten (h : d.IsLive names) :
    (∃ x ∈ d.root.declarations, x.name = d.code)
      ∨ d.root.isWritten d.code = false := by
  by_contra hno
  simp only [not_or, not_exists, not_and, Bool.not_eq_false] at hno
  have hnone : d.binding? d.code = none := by
    have hnil : d.declarationsOf d.code = [] := by
      rw [declarationsOf, List.filter_eq_nil_iff]
      intro x hx
      simpa using hno.1 x hx
    rw [binding?, hnil, lookUp_nil]
  have hmeans := h.means
  rw [meansFactory, meansFactoryWithin, hnone, hno.2] at hmeans
  cases hw : d.inWith <;> simp [hw] at hmeans

end Cursor

-- ============================================================== rewrites

section Through

open Cursor

variable {context : RuleContext} {names : List Text} {c call m o : Cursor}
  {name : Text} {methods : List String} {target new : Node}

/-- The function of a call in the tree is in the tree. -/
theorem mem_root_of_function {f : Cursor} (hc : c ∈ c.root.walk)
    (hf : c.unparen.child? .function = some f) : f ∈ c.root.walk :=
  mem_walk_trans hc (mem_walk_trans (unparen_mem_walk c) (mem_walk_of_child? hf))

theorem mem_root_of_object (hc : c ∈ c.root.walk)
    (hm : c.inner? .function = some m) (ho : m.child? .object = some o) :
    o.unparen ∈ c.root.walk :=
  mem_walk_trans hc (mem_walk_trans (mem_walk_of_inner? hm)
    (mem_walk_trans (mem_walk_of_child? ho) (unparen_mem_walk o)))

/-- A call on a wrapper is made through the identifier that made it. -/
theorem WrapperOf.through_live (hc : c ∈ c.root.walk)
    (hm : c.inner? .function = some m) (ho : m.child? .object = some o)
    (h : WrapperOf names o.unparen call) :
    ∃ d ∈ c.root.walk, d.IsLive names ∧ c.Through d := by
  have hmem := mem_root_of_object hc hm ho
  have hroot : o.unparen.root = c.root := by
    rw [root_of_mem_walk hmem]
    rfl
  have hu := unparen_unparen o
  cases h with
  | direct hf =>
      obtain ⟨d, hd, hlive⟩ := isLive_of_isFactoryCall hf
      have hd' := hd
      rw [hu] at hd'
      refine ⟨d, ?_, hlive, .receiver hm ho hd'⟩
      rw [← hroot] at hmem ⊢
      exact mem_root_of_function hmem hd
  | @bound init _ hinit hf =>
      obtain ⟨d, hd, hlive⟩ := isLive_of_isFactoryCall hf
      rw [hu] at hinit
      have hinit' := resolve?_mem_walk hinit
      have hr : init.root = c.root := by
        rw [root_of_mem_walk hinit', hroot]
        rfl
      refine ⟨d, ?_, hlive, .alias hm ho hinit hd⟩
      rw [hroot, ← hr] at hinit'
      rw [← hr]
      exact mem_root_of_function hinit' hd

theorem ElementOf.wrapperOf (hu : c.unparen = c) (h : ElementOf context c target) :
    ∃ call, WrapperOf context.factoryNames c call := by
  cases h with
  | moved hf _ _ => exact ⟨_, .direct hf⟩
  | lookedUp hf _ _ _ => exact ⟨_, .direct hf⟩
  | copied hk hinit hf _ _ _ =>
      exact ⟨_, .bound (by rw [hu]; exact hk) (by rw [hu]; exact hinit) hf⟩

theorem Cursor.HasElement.through_live (hc : c ∈ c.root.walk)
    (hm : c.inner? .function = some m) (h : m.HasElement context target) :
    ∃ d ∈ c.root.walk, d.IsLive context.factoryNames ∧ c.Through d := by
  obtain ⟨o, ho, helement⟩ := h
  obtain ⟨call, hcall⟩ := helement.wrapperOf (unparen_unparen o)
  exact hcall.through_live hc hm ho

theorem through_live_of_object (hc : c ∈ c.root.walk)
    (hm : c.inner? .function = some m) (ho : m.child? .object = some o)
    (hf : o.isFactoryIdentifier names = .ok true) :
    ∃ d ∈ c.root.walk, d.IsLive names ∧ c.Through d :=
  ⟨o.unparen, mem_root_of_object hc hm ho, isLive_of_isFactoryIdentifier hf,
    .object hm ho⟩

theorem MethodForm.through_live (hc : c ∈ c.root.walk)
    (hm : c.calledMember? = some (m, name))
    (h : MethodForm context c m name methods new) :
    ∃ d ∈ c.root.walk, d.IsLive context.factoryNames ∧ c.Through d := by
  have hm' := (calledMember?_eq_some hm).1
  cases h with
  | tell _ _ _ _ _ _ ht _ => exact ht.through_live hc hm'
  | read _ _ _ ht => exact ht.through_live hc hm'
  | prop _ ht => exact ht.through_live hc hm'
  | write _ _ _ ht _ => exact ht.through_live hc hm'
  | display _ _ _ ht => exact ht.through_live hc hm'
  | computed ht => exact ht.through_live hc hm'
  | dispatch ht _ => exact ht.through_live hc hm'
  | size ho hw => exact hw.through_live hc hm' ho
  | loaded ho hf _ => exact (WrapperOf.direct hf).through_live hc hm' ho
  | neighbour _ _ ht => exact ht.through_live hc hm'
  | found _ ht _ => exact ht.through_live hc hm'
  | closest _ ht _ _ => exact ht.through_live hc hm'
  | siblings _ ht _ _ _ => exact ht.through_live hc hm'
  | remove _ ht _ => exact ht.through_live hc hm'
  | empty _ ht _ => exact ht.through_live hc hm'
  | insert ht _ => exact ht.through_live hc hm'
  | visit ho hf _ _ _ => exact (WrapperOf.direct hf).through_live hc hm' ho
  | each ho hf _ _ => exact through_live_of_object hc hm' ho hf
  | grep ho hf _ => exact through_live_of_object hc hm' ho hf
  | map ho hf _ _ => exact through_live_of_object hc hm' ho hf
  | trim ho hf _ _ => exact through_live_of_object hc hm' ho hf

/-- What a rule for wrappers rewrites is made through a live
identifier. -/
theorem WrapperForm.through_live (hc : c ∈ c.root.walk)
    (h : WrapperForm context c methods new) :
    ∃ d ∈ c.root.walk, d.IsLive context.factoryNames ∧ c.Through d := by
  cases h with
  | method _ hm h => exact h.through_live hc hm
  | factory hf _ _ =>
      obtain ⟨d, hd, hlive⟩ := isLive_of_isFactoryCall hf
      exact ⟨d, mem_root_of_function hc hd, hlive, .function hd⟩
  | @inArray call other m o _ _ _ hcmp _ hm ho hf _ =>
      have hmem := mem_walk_trans hc hcmp.call_mem_walk
      have hroot : call.root = c.root := by
        rw [root_of_mem_walk hmem]
        rfl
      rw [← hroot] at hmem ⊢
      obtain ⟨d, hd, hlive, hthrough⟩ :=
        through_live_of_object hmem (calledMember?_eq_some hm).1 ho hf
      exact ⟨d, hd, hlive, .side hcmp hthrough⟩

end Through

-- ================================================================= rules

/-- A rule for wrappers makes a rewrite only through a live
identifier. -/
theorem Step.through_live {rule : Rule} (h : rule ∈ Registry.builtin.rules)
    (hg : rule.group = "jquery") {context : RuleContext} {sweeps : List Sweep}
    (haction : rule.action = .sweeps sweeps) {s : Sweep} (hs : s ∈ sweeps)
    {k : Symbol} {w : Workspace} {r : Rewrite} {p : Cursor}
    (hstep : Step context.factoryNames k w r p)
    (hr : s.replacement context r.site = .ok (some r.new)) :
    ∃ d ∈ r.site.root.walk, d.IsLive context.factoryNames ∧ r.site.Through d := by
  rcases hstep.form h haction hs hr with ⟨-, names, hform⟩ | ⟨hg', -⟩
  · exact hform.through_live (hstep.sound.stands hstep.mem).placed.mem_walk_root
  · exact absurd (hg'.symm.trans hg) (by decide)

/-- Each rewrite of a rule for wrappers is made through a live
identifier. -/
theorem Rule.through_live_of_mem_rewrites {rule : Rule}
    (h : rule ∈ Registry.builtin.rules) (hg : rule.group = "jquery")
    {context : RuleContext} {w : Workspace} (hw : w.Sound) {r : Rewrite}
    (hr : r ∈ rule.rewrites context w) :
    r.site.Placed ∧ ∃ d ∈ r.site.root.walk,
      d.IsLive context.factoryNames ∧ r.site.Through d := by
  obtain ⟨sweeps, haction, s, hs, hnew, k, v, p, hstep, -⟩ :=
    Rule.exists_step_of_mem_rewrites h hw hr
  exact ⟨(hstep.sound.stands hstep.mem).placed,
    hstep.through_live h hg haction hs hnew⟩

/-- The rules for wrappers act on a live factory only. Where no identifier
of a parsed program is live, a rule leaves the workspace as it is and
reports no change. In any program each rewrite is made through a live
identifier; its name is declared in the program as it then stands, or
written nowhere. -/
theorem Rule.acts_on_live_factory {rule : Rule}
    (h : rule ∈ Registry.builtin.rules) (hg : rule.group = "jquery")
    (context : RuleContext) {source : Text} {n : Node}
    (hn : parse source = .ok n) :
    ((∀ d ∈ (Cursor.top n).walk, ¬ d.IsLive context.factoryNames) →
      (rule.apply context (.ofProgram n)).1 = .ofProgram n
        ∧ (rule.apply context (.ofProgram n)).2 ≠ .ok true)
    ∧ ∀ r ∈ rule.rewrites context (.ofProgram n), ∃ d ∈ r.site.root.walk,
        d.IsLive context.factoryNames ∧ r.site.Through d
          ∧ ((∃ x ∈ d.root.declarations, x.name = d.code)
            ∨ d.root.isWritten d.code = false) := by
  have hsound := parse_sound hn
  constructor
  · intro hdead
    rcases Rule.keeps_of_mem h with ⟨k, hk, sweeps, haction, hkeeps⟩ | rfl
    · refine (Rule.apply_spec haction hk hkeeps hsound).still ?_
      rintro v ⟨s, hs, ⟨hstep, hr⟩⟩
      obtain ⟨d, hd, hlive, -⟩ := hstep.through_live h hg haction hs hr
      rw [(Cursor.mem_walk_top.1 hstep.mem).2] at hd
      exact hdead d hd hlive
    · exact absurd hg (by decide)
  · intro r hr
    obtain ⟨-, d, hd, hlive, hthrough⟩ :=
      Rule.through_live_of_mem_rewrites h hg hsound hr
    exact ⟨d, hd, hlive, hthrough, hlive.declared_or_unwritten⟩

/-- A program in which `$` is written: nothing is live. -/
theorem Rules.showHide_leaves_written_factory :
    showHide ∈ Registry.builtin.rules ∧ showHide.group = "jquery"
      ∧ ∃ n, parse (Text.ofString "$(el).show(); $ = other;") = .ok n
        ∧ (showHide.apply .default (.ofProgram n)).1 = .ofProgram n
        ∧ (showHide.apply .default (.ofProgram n)).2 ≠ .ok true := by
  have hrule : showHide ∈ Registry.builtin.rules := List.mem_cons_self
  obtain ⟨n, hn, hdead⟩ := exists_of_parse_any
    (Text.ofString "$(el).show(); $ = other;")
    (fun n => (Cursor.top n).walk.all fun d =>
      !(d.is .identifier && defaultFactoryNames.contains d.code
        && (d.meansFactory defaultFactoryNames d.code).toOption == some true))
    (by decide +kernel)
  refine ⟨hrule, rfl, n, hn,
    (Rule.acts_on_live_factory hrule rfl .default hn).1 fun d hd hlive => ?_⟩
  have := List.all_eq_true.1 hdead d hd
  rw [hlive.kind, show d.meansFactory defaultFactoryNames d.code = .ok true
    from hlive.means, List.contains_iff_mem.2 (show d.code ∈ defaultFactoryNames
    from hlive.named)] at this
  cases this

/-- The template of a tagged call is left out, and the write in it is
forgotten: the program writes `$` and does not declare it, and a call of
`$` is rewritten. -/
theorem Rules.showHide_forgets_write :
    ∃ n, parse (Text.ofString "jQuery(a).show`${$ = 1}`; $(b).show();") = .ok n
      ∧ (∀ x ∈ (Cursor.top n).declarations, x.name ≠ Text.ofString "$")
      ∧ (Cursor.top n).isWritten (Text.ofString "$") = true
      ∧ (∃ r ∈ showHide.rewrites .default (.ofProgram n),
        r.site.code = Text.ofString "$(b).show()")
      ∧ (showHide.apply .default (.ofProgram n)).1.render
        = Text.ofString "a.style.display = \"\"; b.style.display = \"\";" := by
  obtain ⟨n, hn, h⟩ := exists_of_parse_any
    (Text.ofString "jQuery(a).show`${$ = 1}`; $(b).show();")
    (fun n => (Cursor.top n).declarations.all (fun x => x.name != Text.ofString "$")
      && (Cursor.top n).isWritten (Text.ofString "$")
      && (showHide.rewrites .default (.ofProgram n)).any
        (fun r => r.site.code == Text.ofString "$(b).show()")
      && (showHide.apply .default (.ofProgram n)).1.render
        == Text.ofString "a.style.display = \"\"; b.style.display = \"\";")
    (by decide +kernel)
  simp only [Bool.and_eq_true, List.all_eq_true, List.any_eq_true, bne_iff_ne,
    beq_iff_eq] at h
  exact ⟨n, hn, h.1.1.1, h.1.1.2, h.1.2, h.2⟩

end Codemod
