/-
Listeners that are added and removed.

A call of `on` and a call of `off` are rewritten by two rules, each with
tests of its own. All that these look at is told by where the names in the
two calls are bound (`Cursor.Shares`), so when both calls are about one
element, one event and one function, the rules decide alike
(`Cursor.Tells.takes_removeListener_iff`). The exception are the shorter
calls of `off`, which remove the same listener and others with it: no test
lets them pass. Main statement: `Rules.listeners_together`.
-/
import Codemod.Proofs.Rule.Attachment
import Codemod.Proofs.Rule.Trade
import Codemod.Proofs.Config.Settings

namespace Codemod

open Cursor Node

-- ================================================================= names

namespace Cursor

/-- Both expressions are one name, and it is bound alike in both places. -/
structure Shares (a b : Cursor) : Prop where
  left : a.unparen.is .identifier = true
  right : b.unparen.is .identifier = true
  code : a.unparen.code = b.unparen.code
  binding : a.unparen.binding? a.unparen.code = b.unparen.binding? b.unparen.code
  inWith : a.unparen.inWith = b.unparen.inWith

variable {a b c s : Cursor} {n : Node} {t : Text}

/-- Names with the same scope have the same declarations. -/
theorem binding?_eq_of_sameScope (hn : n.Identified) (ha : a ∈ (top n).walk)
    (hb : b ∈ (top n).walk)
    (h : sameScope (a.bindingScope? t) (b.bindingScope? t) = true) :
    a.binding? t = b.binding? t := by
  have hdecls : a.declarationsOf t = b.declarationsOf t :=
    (declarationsOf_eq ha).trans (declarationsOf_eq hb).symm
  unfold bindingScope? at h
  cases hba : a.binding? t with
  | none =>
      cases hbb : b.binding? t with
      | none => rfl
      | some _ => rw [hba, hbb] at h; cases h
  | some found =>
      obtain ⟨s, ds⟩ := found
      cases hbb : b.binding? t with
      | none => rw [hba, hbb] at h; cases h
      | some found =>
          obtain ⟨s', ds'⟩ := found
          rw [hba, hbb] at h
          have hs : s = s' := eq_of_same hn
            (mem_walk_of_mem_scopeChain ha (mem_of_lookUp hba)).1
            (mem_walk_of_mem_scopeChain hb (mem_of_lookUp hbb)).1 h
          rw [found_of_lookUp hba, found_of_lookUp hbb, hs, hdecls]

/-- A name that keeps its value up to another place is shared with it. -/
theorem shares_of_isStableAt (hn : n.Identified) (ha : a ∈ (top n).walk)
    (hb : b ∈ (top n).walk) (hka : a.unparen.is .identifier = true)
    (hkb : b.unparen.is .identifier = true) (hcode : a.unparen.code = b.unparen.code)
    (h : a.isStableAt b.unparen = .ok true) : a.Shares b := by
  have hname := isStableName_of_isStableAt hka h
  unfold isStableName at hname
  split at hname
  · cases hname
  · next hwith =>
      rw [Bool.or_eq_true, not_or, Bool.not_eq_true, Bool.not_eq_true] at hwith
      simp only at hname
      split at hname
      · cases hname
      · next hscope =>
          rw [Bool.not_eq_true, Bool.not_eq_false'] at hscope
          refine ⟨hka, hkb, hcode, ?_, hwith.1.trans hwith.2.symm⟩
          rw [← hcode]
          exact binding?_eq_of_sameScope hn (mem_walk_trans ha (unparen_mem_walk a))
            (mem_walk_trans hb (unparen_mem_walk b)) hscope

namespace Shares

variable (h : a.Shares b)
include h

theorem resolve? : a.unparen.resolve? a.unparen.code
    = b.unparen.resolve? b.unparen.code := by
  unfold Cursor.resolve?
  rw [h.binding, h.inWith, h.code]

/-- Whether a name holds an element does not depend on where it stands. -/
theorem isElement : a.isElement = b.isElement := by
  have hthis : ∀ {d : Cursor}, d.is .identifier = true → d.is .thisExpr = false := fun hk =>
    is_false_of_kind (is_iff.1 hk) (by decide)
  rw [Cursor.isElement, Cursor.isElement, elementDepth, isElementWithin, isElementWithin]
  simp only [hthis h.left, hthis h.right, h.left, h.right, Bool.false_eq_true, if_false,
    if_true]
  rw [h.resolve?, h.binding, h.code]

/-- Nor does the function that it stands for. -/
theorem isPlainHandler : a.isPlainHandler = b.isPlainHandler := by
  have hfunction : ∀ {d : Cursor}, d.is .identifier = true →
      d.node.isFunctionLiteral = false := fun hk =>
    isAny_false_of_kind hk (by decide)
  unfold Cursor.isPlainHandler handlerFunction?
  simp only [hfunction h.left, hfunction h.right, h.left, h.right, Bool.false_eq_true,
    if_false, Bool.not_true]
  rw [h.resolve?, h.binding, h.code]

end Shares

theorem namesEvent_congr (h : a.node.stringValue = b.node.stringValue) :
    a.namesEvent = b.namesEvent := by
  rw [namesEvent, namesEvent, h]

-- ============================================================ statements

/-- A statement that calls a method on the wrapper of a name, the wrapper
being made in the same place. -/
structure Tells (context : RuleContext) (method : String) (c a : Cursor)
    (args : List Cursor) : Prop where
  called : c.isMethodCall [method] = true
  discarded : c.isDiscarded = true
  arguments : c.arguments = args
  plain : c.hasSpread = false
  wraps : ∃ m name o, c.calledMember? = some (m, name) ∧ m.child? .object = some o
    ∧ o.unparen.isFactoryCall context.factoryNames = .ok true ∧ o.unparen.arguments = [a]
  name : a.unparen.is .identifier = true

/-- Some name is told something, and passes a test with the arguments. -/
def tellsAny (context : RuleContext) (method : String)
    (test : Cursor → List Cursor → Bool) (c : Cursor) : Bool :=
  c.isMethodCall [method] && c.isDiscarded && !c.hasSpread
    && c.calledMember?.any fun (m, _) => (m.child? .object).any fun o =>
      (o.unparen.isFactoryCall context.factoryNames).toOption == some true
        && o.unparen.arguments.any fun a =>
          a.unparen.is .identifier && test a c.arguments

variable {context : RuleContext} {method : String} {args : List Cursor} {m o : Cursor}
  {name : Text} {names : List Text}

theorem exists_tells {test : Cursor → List Cursor → Bool}
    (h : c.tellsAny context method test = true) :
    ∃ a args, c.Tells context method a args ∧ test a args = true := by
  simp only [tellsAny, Bool.and_eq_true, Bool.not_eq_true', Option.any_eq_true,
    List.any_eq_true, beq_iff_eq] at h
  obtain ⟨⟨⟨hcalled, hdiscarded⟩, hplain⟩, ⟨m, name⟩, hm, o, ho, hf, a, ha, hk, htest⟩ := h
  have hf := eq_ok_of_toOption hf
  obtain ⟨-, -, b, hargs⟩ := isFactoryCall_spec hf
  rw [unparen_unparen] at hargs
  rw [hargs, List.mem_singleton] at ha
  subst ha
  exact ⟨a, _, ⟨hcalled, hdiscarded, rfl, hplain, ⟨m, name, o, hm, ho, hf, hargs⟩, hk⟩,
    htest⟩

/-- The object of a member access gives way to its argument. -/
theorem isFoldable_of_object (hm : m.is .memberExpression = true)
    (ho : m.child? .object = some o) (hf : o.unparen.isFactoryCall names = .ok true)
    {allowed : List Text} : o.unparen.isFoldable 1 allowed names = .ok true := by
  have hmem := mem_children_of_child? ho
  have hparens : m.is .parenthesizedExpression = false :=
    is_false_of_kind (is_iff.1 hm) (by decide)
  have hclimb : o.unparen.climb = o := by
    rw [climb_unparen, climb_of_mem_children hmem hparens]
  have hchild : m.hasChild .object o = true := by
    rw [hasChild, ho]
    exact beq_self_eq_true _
  obtain ⟨-, -, a, ha⟩ := isFactoryCall_spec hf
  rw [unparen_unparen] at ha
  unfold isFoldable
  simp only [unparen_unparen, hf, ha, hclimb, parent?_of_mem_children hmem, hm, hchild]
  rfl

theorem stringValue_of_identifier (h : a.unparen.is .identifier = true) :
    a.node.stringValue = .ok none := by
  have hany : a.node.isAny [.string, .templateString] = false := by
    rw [Bool.eq_false_iff]
    intro hk
    obtain ⟨s, hs, hk⟩ := List.any_eq_true.1 hk
    have hne : ∀ s ∈ [Symbol.string, .templateString],
        s ≠ .parenthesizedExpression ∧ s ≠ .identifier := by decide
    rw [unparen_of_not_parens (is_false_of_kind (is_iff.1 hk) (hne s hs).1), Cursor.is,
      is_false_of_kind (is_iff.1 hk) (hne s hs).2] at h
    cases h
  rw [stringValue, hany]
  rfl

/-- What comes for the wrapper is the name, if it may hold an element. -/
theorem Tells.receiver_eq (h : c.Tells context method a args)
    (hm : c.calledMember? = some (m, name)) :
    receiverTarget? context m = .ok (if a.isElement then some a.node else none) := by
  obtain ⟨m', name', o, hm', ho, hf, ha⟩ := h.wraps
  obtain ⟨rfl, rfl⟩ := Prod.mk.inj (Option.some.inj (hm.symm.trans hm'))
  have hmember : m.is .memberExpression = true :=
    is_of_propertyName? (calledMember?_eq_some hm).2
  have hwrapper := wrapperCall?_of_isFactoryCall hf
  rw [unparen_unparen] at hwrapper
  have hid : a.idSelector? = .ok none := by
    rw [idSelector?, stringValue_of_identifier h.name]
    rfl
  have hinner : m.inner? .object = some o.unparen := by rw [inner?, ho, Option.map_some]
  have htarget : o.unparen.wrapperTarget? context.factoryNames = .ok (some a.node) := by
    unfold wrapperTarget?
    rw [hwrapper]
    simp [bind, Except.bind, ha]
    rfl
  unfold receiverTarget?
  simp only [hinner, hwrapper, bind, Except.bind, ha, List.head?_cons, hid]
  cases a.isElement with
  | false => rfl
  | true => simp [isFoldable_of_object hmember ho hf, htarget]

end Cursor

-- ================================================================= rules

/-- The rule puts something in the place of the expression. -/
def Rule.Takes (rule : Rule) (context : RuleContext) (c : Cursor) : Prop :=
  ∃ sweeps, rule.action = .sweeps sweeps ∧ ∃ s ∈ sweeps, s.isCandidate c = true
    ∧ ∃ new, s.replacement context c = .ok (some new)

section Takes

variable {context : RuleContext} {c d a b e f m : Cursor} {args : List Cursor}
  {method : String} {name : Text}

/-- A rule for methods takes calls of them that pass its test. -/
theorem Rule.takes_ofMethods {label group description : String} {names : List String}
    {test : RuleContext → Cursor → Cursor → Text → List Cursor → Check (Option Node)}
    (hm : c.calledMember? = some (m, name)) (hspread : c.hasSpread = false) :
    (Rule.ofSweeps label group description [.ofMethods names test]).Takes context c
      ↔ c.isMethodCall names = true
        ∧ ∃ new, test context c m name c.arguments = .ok (some new) := by
  have hreplace : (Sweep.ofMethods names test).replacement context c
      = test context c m name c.arguments := by
    simp only [Sweep.ofMethods, hm, hspread, Bool.false_eq_true, if_false]
  constructor
  · rintro ⟨sweeps, haction, s, hs, hcand, new, hnew⟩
    obtain rfl := RuleAction.sweeps.inj haction
    obtain rfl := List.mem_singleton.1 hs
    exact ⟨hcand, new, hreplace.symm.trans hnew⟩
  · rintro ⟨hcand, new, hnew⟩
    exact ⟨_, rfl, _, List.mem_singleton.2 rfl, hcand, new, hreplace.trans hnew⟩

namespace Cursor.Tells

/-- A listener is added if the event has a plain name and the function is
known and plain. -/
theorem takes_addListener_iff (h : c.Tells context "on" a args) :
    Rules.addListener.Takes context c ↔ ∃ e f, args = [e, f]
      ∧ e.namesEvent = .ok true ∧ f.isPlainHandler = true ∧ a.isElement = true := by
  obtain ⟨m, name, -, hm, -⟩ := h.wraps
  rw [Rules.addListener, Rule.takes_ofMethods hm h.plain, h.arguments,
    and_iff_right h.called]
  match args with
  | [] | [_] | _ :: _ :: _ :: _ => simp [pure_eq_ok]
  | [e, f] =>
      simp only [bind_eq_ok, unless_eq_ok, h.receiver_eq hm]
      cases a.isElement with
      | false => simp [pure_eq_ok]
      | true => simp [pure_eq_ok, h.discarded]

/-- It is removed if the function has a name besides. -/
theorem takes_removeListener_iff (h : d.Tells context "off" b args) :
    Rules.removeListener.Takes context d ↔ ∃ e f, args = [e, f]
      ∧ e.namesEvent = .ok true ∧ f.unparen.is .identifier = true
      ∧ f.isPlainHandler = true ∧ b.isElement = true := by
  obtain ⟨m, name, -, hm, -⟩ := h.wraps
  rw [Rules.removeListener, Rule.takes_ofMethods hm h.plain, h.arguments,
    and_iff_right h.called]
  match args with
  | [] | [_] | _ :: _ :: _ :: _ => simp [pure_eq_ok]
  | [e, f] =>
      simp only [bind_eq_ok, unless_eq_ok, h.receiver_eq hm]
      cases b.isElement with
      | false => simp [pure_eq_ok]
      | true => simp [pure_eq_ok, h.discarded, and_assoc]

end Cursor.Tells

end Takes

-- =============================================================== removing

/-- What a call of `off` is given that removes a listener: nothing, its
event, or its event and its function. -/
inductive Removes (event handler : Cursor) : List Cursor → Prop where
  | all : Removes event handler []
  | event {e : Cursor} : event.node.stringValue = e.node.stringValue →
    Removes event handler [e]
  | handler {e f : Cursor} : event.node.stringValue = e.node.stringValue →
    handler.Shares f → Removes event handler [e, f]

/-- The one statement removes a listener from an element that the other adds
to it. The element has one name in both places, and keeps its value. -/
inductive Cursor.Undoes (context : RuleContext) (d c : Cursor) : List Cursor → Prop where
  | intro {a b e f : Cursor} {args : List Cursor} : c.Tells context "on" a [e, f] →
    d.Tells context "off" b args → a.unparen.code = b.unparen.code →
    a.isStableAt b.unparen = .ok true → Removes e f args → Undoes context d c args

section Removing

variable {context : RuleContext} {c d a b e f : Cursor} {args : List Cursor} {n : Node}
  {w : Workspace} {r : Rewrite}

/-- Both literals have one value. -/
def Cursor.sameText (a b : Cursor) : Bool :=
  match a.node.stringValue, b.node.stringValue with
  | .ok s, .ok t => s == t
  | _, _ => false

/-- Both expressions are one name, which keeps its value in between. -/
def Cursor.keepsName (a b : Cursor) : Bool :=
  a.unparen.is .identifier && b.unparen.is .identifier && a.unparen.code == b.unparen.code
    && (a.isStableAt b.unparen).toOption == some true

/-- A listener is removed that has a name, or with all for its event. -/
def Cursor.removes (event handler : Cursor) : List Cursor → Bool
  | [] => true
  | [e] => event.sameText e
  | [e, f] => event.sameText e && handler.keepsName f
  | _ => false

/-- The one statement removes a listener that the other adds. -/
def Cursor.isUndoneBy (context : RuleContext) (c d : Cursor) : Bool :=
  c.tellsAny context "on" fun a added => d.tellsAny context "off" fun b removed =>
    a.keepsName b && match added with
      | [e, f] => e.removes f removed
      | _ => false

theorem Cursor.stringValue_of_sameText (h : a.sameText b = true) :
    a.node.stringValue = b.node.stringValue := by
  unfold sameText at h
  split at h
  · next hs ht => rw [hs, ht, beq_iff_eq.1 h]
  · cases h

theorem Cursor.shares_of_keepsName (hn : n.Identified) (ha : a ∈ (top n).walk)
    (hb : b ∈ (top n).walk) (h : a.keepsName b = true) : a.Shares b := by
  simp only [keepsName, Bool.and_eq_true, beq_iff_eq] at h
  obtain ⟨⟨⟨hka, hkb⟩, hcode⟩, hstable⟩ := h
  exact shares_of_isStableAt hn ha hb hka hkb hcode (eq_ok_of_toOption hstable)

theorem removes_of_removes (hn : n.Identified) (hf : f ∈ (top n).walk)
    (hargs : ∀ a ∈ args, a ∈ (top n).walk) (h : e.removes f args = true) :
    Removes e f args := by
  match args with
  | [] => exact .all
  | [_] => exact .event (stringValue_of_sameText h)
  | [_, g] =>
      rw [Cursor.removes, Bool.and_eq_true] at h
      exact .handler (stringValue_of_sameText h.1)
        (shares_of_keepsName hn hf (hargs g (by simp)) h.2)
  | _ :: _ :: _ :: _ => cases h

theorem undoes_of_isUndoneBy (hn : n.Identified) (hc : c ∈ (top n).walk)
    (hd : d ∈ (top n).walk) (h : c.isUndoneBy context d = true) :
    d.Undoes context c d.arguments := by
  obtain ⟨a, added, hon, h⟩ := exists_tells h
  obtain ⟨b, removed, hoff, h⟩ := exists_tells h
  rw [Bool.and_eq_true] at h
  obtain ⟨hkeeps, h⟩ := h
  have hwalk : ∀ {c : Cursor}, c ∈ (top n).walk → ∀ a ∈ c.arguments, a ∈ (top n).walk :=
    fun hc a ha => mem_walk_trans hc (mem_walk_of_mem_arguments ha)
  split at h
  · next e f _ =>
      simp only [keepsName, Bool.and_eq_true, beq_iff_eq] at hkeeps
      have hf : f ∈ c.arguments := by rw [hon.arguments]; simp
      rw [hoff.arguments]
      refine .intro hon hoff hkeeps.1.2 (eq_ok_of_toOption hkeeps.2)
        (removes_of_removes hn (hwalk hc f hf) (fun a ha => hwalk hd a ?_) h)
      rwa [hoff.arguments]
  · cases h

theorem Cursor.Undoes.called (h : d.Undoes context c args) :
    c.isMethodCall ["on"] = true ∧ d.isMethodCall ["off"] = true := by
  obtain ⟨hon, hoff, -, -, -⟩ := h
  exact ⟨hon.called, hoff.called⟩

/-- The rules decide alike, save that short calls of `off` are not taken. -/
theorem Cursor.Undoes.takes_iff (hn : n.Identified) (hc : c ∈ (top n).walk)
    (hd : d ∈ (top n).walk) (h : d.Undoes context c args) :
    Rules.removeListener.Takes context d
      ↔ Rules.addListener.Takes context c ∧ args.length = 2 := by
  obtain ⟨hon, hoff, hcode, hstable, hremoves⟩ := h
  rw [hon.takes_addListener_iff, hoff.takes_removeListener_iff]
  have harg : ∀ {c a : Cursor} {method args}, c ∈ (top n).walk →
      c.Tells context method a args → a ∈ (top n).walk := by
    rintro c a method args hc ⟨-, -, -, -, ⟨m, name, o, hm, ho, -, ha⟩, -⟩
    have hmem : a ∈ o.unparen.arguments := by rw [ha]; exact List.mem_singleton.2 rfl
    exact mem_walk_trans hc (((below_of_object hm ho).of_mem_walk
      (unparen_mem_walk o)).of_mem_walk (mem_walk_of_mem_arguments hmem)).mem_walk
  have helement := (shares_of_isStableAt hn (harg hc hon) (harg hd hoff) hon.name hoff.name
    hcode hstable).isElement
  cases hremoves with
  | all => simp
  | event _ => simp
  | handler hevent hshares =>
      simp [namesEvent_congr hevent, hshares.isPlainHandler, hshares.right, helement]

/-- What a rule for methods rewrites it takes, in the program as it stands
then. -/
theorem Rule.takes_of_mem_rewrites {label group description : String} {names : List String}
    {test : RuleContext → Cursor → Cursor → Text → List Cursor → Check (Option Node)}
    (hrule : Rule.ofSweeps label group description [.ofMethods names test]
      ∈ Registry.builtin.rules) (hw : w.Sound)
    (hr : r ∈ (Rule.ofSweeps label group description [.ofMethods names test]).rewrites
      context w) (hcall : r.site.isMethodCall names = true) :
    (Rule.ofSweeps label group description [.ofMethods names test]).Takes context r.site
      ∧ r.site.root.node.Identified ∧ r.site ∈ r.site.root.walk := by
  obtain ⟨sweeps, haction, s, hs, hnew, k, v, p, hstep, -⟩ :=
    Rule.exists_step_of_mem_rewrites hrule hw hr
  have hroot : r.site.root = top v.program := root_of_mem_walk hstep.mem
  obtain rfl := RuleAction.sweeps.inj haction
  obtain rfl := List.mem_singleton.1 hs
  refine ⟨⟨_, rfl, _, List.mem_singleton.2 rfl, hcall, r.new, hnew⟩, ?_, ?_⟩
  · rw [hroot]
    exact identified_of_ids hstep.sound.isSome hstep.sound.nodup
  · rw [hroot]
    exact hstep.mem

namespace Rules

/-- When a rewrite adds a listener natively, then of the statements that
remove it those are taken that name its function, and no shorter ones; and
when a rewrite removes one natively, then every statement that adds it is
taken. -/
theorem listeners_together (hw : w.Reached) :
    (∀ r ∈ addListener.rewrites context w, ∀ d ∈ r.site.root.walk, ∀ args,
      d.Undoes context r.site args →
        (removeListener.Takes context d ↔ args.length = 2))
    ∧ ∀ r ∈ removeListener.rewrites context w, ∀ c ∈ r.site.root.walk, ∀ args,
      r.site.Undoes context c args → addListener.Takes context c := by
  have hsound := hw.distinct.sound
  refine ⟨fun r hr d hd args h => ?_, fun r hr c hc args h => ?_⟩
  · obtain ⟨htakes, hid, hmem⟩ := Rule.takes_of_mem_rewrites
      (by simp [Registry.builtin, addListener]) hsound hr h.called.1
    rw [h.takes_iff hid hmem hd]
    exact and_iff_right htakes
  · obtain ⟨htakes, hid, hmem⟩ := Rule.takes_of_mem_rewrites
      (by simp [Registry.builtin, removeListener]) hsound hr h.called.2
    exact ((h.takes_iff hid hc hmem).1 htakes).1

/-- The function has a name, by which it is removed: each of the two calls is
taken, and has the other taken too. -/
theorem removeListener_follows_addListener :
    ∃ w r s args, w.Reached ∧ r ∈ addListener.rewrites .default w
      ∧ s ∈ removeListener.rewrites .default w
      ∧ s.site ∈ r.site.root.walk ∧ r.site ∈ s.site.root.walk
      ∧ s.site.Undoes .default r.site args ∧ args.length = 2
      ∧ removeListener.Takes .default s.site ∧ addListener.Takes .default r.site := by
  have hadd : addListener ∈ Registry.builtin.rules := by simp [Registry.builtin]
  have hremove : removeListener ∈ Registry.builtin.rules := by simp [Registry.builtin]
  obtain ⟨n, hn, h⟩ := exists_of_parse_any (Text.ofString
      "function h() \x7b\x7d $(el).on(\"click\", h); $(el).off(\"click\", h);")
    (fun n => (addListener.rewrites .default (.ofProgram n)).head?.any fun r =>
      (removeListener.rewrites .default (.ofProgram n)).head?.any fun s =>
        s.site.arguments.length == 2 && r.site.isUndoneBy .default s.site)
    (by decide +kernel)
  simp only [Option.any_eq_true, Bool.and_eq_true, beq_iff_eq] at h
  obtain ⟨r, hr, s, hs, hlength, hundone⟩ := h
  have hw : (Workspace.ofProgram n).Reached := .parsed hn
  have hr' : r.site ∈ (top n).walk :=
    Rule.site_mem_of_head?_rewrites hadd hw.distinct.sound hr
  have hs' : s.site ∈ (top n).walk :=
    Rule.site_mem_of_head?_rewrites hremove hw.distinct.sound hs
  have hundoes := undoes_of_isUndoneBy (parse_identified hn) hr' hs' hundone
  have hbehind : s.site ∈ r.site.root.walk := by rwa [root_of_mem_walk hr']
  have hbefore : r.site ∈ s.site.root.walk := by rwa [root_of_mem_walk hs']
  exact ⟨.ofProgram n, r, s, s.site.arguments, hw, List.mem_of_head? hr,
    List.mem_of_head? hs, hbehind, hbefore, hundoes, hlength,
    ((listeners_together hw).1 r (List.mem_of_head? hr) _ hbehind _ hundoes).2 hlength,
    (listeners_together hw).2 s (List.mem_of_head? hs) _ hbefore _ hundoes⟩

/-- A listener is added natively, and stays where all for its event are
removed. -/
theorem listener_outlives_off :
    ∃ n c d result, parse (Text.ofString
        "$(el).on(\"click\", function () \x7b\x7d); $(el).off(\"click\");") = .ok n
      ∧ c ∈ (top n).walk ∧ d ∈ (top n).walk ∧ d.Undoes .default c d.arguments
      ∧ Settings.default.transform (Text.ofString
        "$(el).on(\"click\", function () \x7b\x7d); $(el).off(\"click\");") = .ok result
      ∧ result.converged = true ∧ result.code = Text.ofString
        "el.addEventListener(\"click\", function () \x7b\x7d); $(el).off(\"click\");" := by
  obtain ⟨n, hn, h⟩ := exists_of_parse_any (Text.ofString
      "$(el).on(\"click\", function () \x7b\x7d); $(el).off(\"click\");")
    (fun n => (top n).walk.any fun c => (top n).walk.any fun d =>
      c.isUndoneBy .default d) (by decide +kernel)
  simp only [List.any_eq_true] at h
  obtain ⟨c, hc, d, hd, hundone⟩ := h
  have hrun : ((Settings.default.transform (Text.ofString
      "$(el).on(\"click\", function () \x7b\x7d); $(el).off(\"click\");")).toOption.any
    fun result => result.converged && result.code == Text.ofString
      "el.addEventListener(\"click\", function () \x7b\x7d); $(el).off(\"click\");") = true := by
    decide +kernel
  simp only [Option.any_eq_true, Bool.and_eq_true, beq_iff_eq] at hrun
  obtain ⟨result, hresult, hcode⟩ := hrun
  exact ⟨n, c, d, result, hn, hc, hd, undoes_of_isUndoneBy (parse_identified hn) hc hd hundone,
    eq_ok_of_toOption hresult, hcode⟩

end Rules

end Removing

end Codemod
