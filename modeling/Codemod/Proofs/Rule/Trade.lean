/-
What rewrites trade that spend no method.

Some rewrites keep the name of the method that they look for, and others
look for none. What they put in the place of an expression uses what the
expression used, without the uses that are lost and with those that are
gained (`Node.Trades`). A call of the factory is lost, or a name that stands
for a wrapper, or an argument (`KeepingForm.trades`, `FactoryForm.trades`);
what is gained is worth less than that (`Lightens`).
-/
import Codemod.Proofs.Rule.Aliased
import Codemod.Proofs.Rule.Surroundings
import Codemod.Proofs.Wrapper.Chain

namespace Codemod

open Cursor Node

-- ================================================================== near

namespace Cursor

variable {c d e a m o : Cursor} {t name : Text} {k : Symbol}

/-- The places are in the same scopes of one tree. -/
structure Near (d c : Cursor) : Prop where
  root : d.root = c.root
  scopes : d.ancestors.filter isScope = c.ancestors.filter isScope

theorem Near.refl (c : Cursor) : c.Near c := ⟨rfl, rfl⟩

theorem Near.trans (h : e.Near d) (h' : d.Near c) : e.Near c :=
  ⟨h.root.trans h'.root, h.scopes.trans h'.scopes⟩

theorem isScope_of_kind (hk : c.is k = true) (hs : k ∉ scopeSymbols) :
    c.isScope = false := by
  rw [← opens_place, Bool.eq_false_iff]
  intro h
  have hno : c.node.head.isScope = false := isScope_false_of_kind hk hs
  simp only [Place.opens, Bool.or_eq_true, Bool.and_eq_true] at h
  simp only [Head.isScope, Bool.or_eq_false_iff] at hno
  grind

theorem near_of_mem_children (hd : d ∈ c.children) (hs : c.isScope = false) :
    d.Near c := by
  refine ⟨root_of_mem_children hd, ?_⟩
  rw [ancestors_of_mem_children hd, List.filter_cons, hs]
  rfl

theorem near_of_child? {r : Role} (hd : c.child? r = some d) (hk : c.is k = true)
    (hs : k ∉ scopeSymbols) : d.Near c :=
  near_of_mem_children (mem_children_of_child? hd) (isScope_of_kind hk hs)

/-- Parentheses are no scopes. -/
theorem near_unparenWithin (fuel : Nat) (c : Cursor) : (unparenWithin fuel c).Near c := by
  induction fuel generalizing c with
  | zero => exact .refl c
  | succ fuel ih =>
      rcases unparenWithin_cases (fuel + 1) c with hu | ⟨e, fuel', hk, he, hf, hu⟩
      · rw [hu]
        exact .refl c
      · obtain rfl : fuel = fuel' := by omega
        rw [hu]
        refine (ih e).trans (near_of_mem_children (mem_children_of_mem_operands ?_)
          (isScope_of_kind hk (by decide)))
        rw [he]
        exact List.mem_singleton.2 rfl

theorem near_unparen (c : Cursor) : c.unparen.Near c := near_unparenWithin _ c

theorem near_of_mem_arguments (ha : a ∈ c.arguments) (hk : c.is k = true)
    (hs : k ∉ scopeSymbols) : a.Near c := by
  unfold arguments at ha
  split at ha
  · next l hl =>
      split at ha
      · next hlk =>
          exact (near_of_mem_children (mem_children_of_mem_operands ha)
            (isScope_of_kind hlk (by decide))).trans (near_of_child? hl hk hs)
      · cases ha
  · cases ha

theorem near_of_object (hk : c.is .callExpression = true)
    (hm : c.calledMember? = some (m, name)) (ho : m.child? .object = some o) :
    o.unparen.Near c := by
  obtain ⟨g, hg, rfl⟩ := exists_function hm
  have hmk := is_of_propertyName? (calledMember?_eq_some hm).2
  exact (near_unparen o).trans ((near_of_child? ho hmk (by decide)).trans
    ((near_unparen g).trans (near_of_child? hg hk (by decide))))

theorem Near.frames (h : d.Near c) : d.place.frames = c.place.frames := by
  rw [frames_place, frames_place, h.scopes]

theorem scopeChain_of_not_isScope (h : c.isScope = false) :
    c.scopeChain = c.ancestors.filter isScope := by
  rw [scopeChain, List.filter_cons, h]
  rfl

/-- Names mean the same in places that are near. -/
theorem Near.binding? (h : d.Near c) (hd : d.isScope = false) (hc : c.isScope = false) :
    d.binding? t = c.binding? t := by
  rw [Cursor.binding?, Cursor.binding?, scopeChain_of_not_isScope hd,
    scopeChain_of_not_isScope hc, h.scopes, declarationsOf, declarationsOf, h.root]

theorem map_frame_scopeChain (h : c.isScope = false) :
    c.scopeChain.map frame = c.place.frames := by
  rw [scopeChain_of_not_isScope h, frames_place]

end Cursor

-- =============================================================== weights

/-- At an expression, a weight that takes no notice of methods that rules
keep and of names that stand for no wrapper, and grows with the depth. -/
structure Gentle (f : Use → Nat) (c : Cursor) : Prop where
  method : ∀ t, isSpent t = false → f (.method t) = 0
  deeper : ∀ t d e, d ≤ e → f (.called t d) ≤ f (.called t e)
  settled : ∀ t, Settled (c.binding? t) → f (.receiver c.place.frames t) = 0

/-- Neither methods nor the depth make a difference to the weight. -/
structure Flat (f : Use → Nat) : Prop where
  method : ∀ t, f (.method t) = 0
  called : ∀ t d e, f (.called t d) = f (.called t e)

/-- At most as much under the weight, and just as much if it is flat. -/
structure AtMost (f : Use → Nat) (a b : Nat) : Prop where
  le : a ≤ b
  eq : Flat f → a = b

theorem AtMost.refl (f : Use → Nat) (a : Nat) : AtMost f a a := ⟨Nat.le_refl a, fun _ => rfl⟩

theorem AtMost.of_eq {f : Use → Nat} {a b : Nat} (h : a = b) : AtMost f a b :=
  ⟨h.le, fun _ => h⟩

/-- The one uses in the place of the other what it did, without what is lost
and with what is gained. -/
def Node.Trades (new : Node) (c : Cursor) (lost gained : List Use) : Prop :=
  ∀ f, Gentle f c → AtMost f (new.tally f c.place + weigh f lost)
    (c.node.tally f c.place + weigh f gained)

namespace Node

variable {f : Use → Nat} {n : Node} {d e : Nat} {fs : List Frame}

theorem weight_atMost (hf : ∀ t d e, d ≤ e → f (.called t d) ≤ f (.called t e))
    (h : d ≤ e) : AtMost f (n.weight f d fs) (n.weight f e fs) := by
  refine ⟨tally_deeper hf h, fun hflat => Nat.le_antisymm (tally_deeper hf h) ?_⟩
  have hframes : List.Forall₂ (Frame.Alike Eq) fs fs :=
    List.forall₂_same.2 fun a _ => ⟨rfl, rfl⟩
  refine weigh_le (uses_alike (J := Eq) (d := e) (e := d)
    ⟨rfl, ⟨0, rfl, rfl⟩, hframes⟩ (alike_refl (fun _ => rfl) n)) fun u v huv => ?_
  cases huv with
  | called t k => exact (hflat.called t _ _).le
  | receiver t hfs => rw [Frame.eq_of_alike hfs]
  | declares t b hij => rw [hij]
  | _ => exact Nat.le_refl _

/-- A name or `this` weighs nothing by itself. -/
theorem weight_of_isReference (hs : n.Shaped) (h : n.isReference = true) :
    n.weight f d fs = 0 := by
  rw [weight, ← Cursor.tally_strip (by decide) hs]
  refine weight_children_nil ((hs.of_mem_walk (strip_mem_walk n)).formed.plain ?_)
  obtain ⟨s, hs, hk⟩ := List.any_eq_true.1 h
  have hatom : ∀ s ∈ [Symbol.identifier, .thisExpr], s ∈ atomSymbols := by decide
  rw [isAtom, Bool.or_eq_true]
  exact Or.inr (List.any_eq_true.2 ⟨s, hatom s hs, hk⟩)

/-- A string whose value is known uses nothing by itself. -/
theorem uses_of_stringValue {t : Text} (hs : n.Shaped) (hv : n.stringValue = .ok (some t)) :
    n.uses ⟨.plain, d, fs⟩ = [] := by
  have hall : ∀ s, n.is s = true → s ∉ markedSymbols → s ∉ introducingSymbols →
      (∀ c ∈ n.children, c.isMute = true) → n.uses ⟨.plain, d, fs⟩ = [] := by
    intro s hk hm hi hcs
    rw [uses_eq, declared_of_kind hk hi, use_plain, List.append_nil, List.append_nil,
      List.flatMap_eq_nil_iff]
    intro c hc
    rw [Place.below_of_kind (h := n.head) hk hm]
    exact uses_of_isMute (hcs c hc)
  unfold stringValue at hv
  split at hv
  · cases hv
  · next hk =>
      split at hv
      · cases hv
      · next ht =>
          cases hstr : n.is .string with
          | true =>
              refine hall _ hstr (by decide) (by decide) fun c hc => ?_
              exact (hs.formed.parts _ _ (is_iff.1 hstr) rfl).others c hc (by
                rw [standsIn]
                split <;> rfl)
          | false =>
              have htpl : n.is .templateString = true := by
                simpa [isAny, hstr] using hk
              refine hall _ htpl (by decide) (by decide) fun c hc =>
                hs.formed.template htpl c hc (Bool.eq_false_iff.2 fun h => ht ?_)
              exact List.any_eq_true.2 ⟨c, hc, h⟩

theorem weight_of_stringValue {t : Text} (hs : n.Shaped)
    (hv : n.stringValue = .ok (some t)) : n.weight f d fs = 0 := by
  rw [weight, tally, uses_of_stringValue hs hv, weigh_nil]

end Node

-- ============================================================== elements

section Elements

variable {context : RuleContext} {f : Use → Nat} {n target : Node} {c m o a : Cursor}
  {d e : Nat} {t name : Text} {lost : List Use}

/-- What is used no longer when the element behind a receiver takes its
place: a call of the factory, or a name that stands for a wrapper. -/
inductive Fetched (us : List Use) (fs : List Frame) (d : Nat) : List Use → Prop where
  | direct {t : Text} {us' : List Use} : us' ⊆ [.argument] →
    Fetched us fs d (.called t d :: us')
  | bound {t : Text} : isAlias us fs t = true → Fetched us fs d [.receiver fs t]

/-- A receiver that is no name of a wrapper weighs what it weighs by
itself. -/
theorem Gentle.tally_settled (hf : Gentle f c) (hc : c.isScope = false)
    (hs : a.node.Shaped) (ha : a.Near c)
    (hk : a.unparen.is .parenthesizedExpression = false)
    (h : a.unparen.is .identifier = true → Settled (a.unparen.binding? a.unparen.code)) :
    a.node.tally f ⟨.receiver, d, c.place.frames⟩ = a.node.weight f d c.place.frames := by
  refine tally_receiver_of hs ?_ fun hident => ?_
  · rw [← node_unparen]
    exact hk
  · rw [← node_unparen] at hident ⊢
    have hnil : a.unparen.node.children = [] :=
      (hs.of_mem_walk (node_mem_walk (unparen_mem_walk a))).formed.plain (by
        rw [isAtom, Bool.or_eq_true]
        exact Or.inr (isAny_iff.2 ⟨.identifier, by decide, is_iff.1 hident⟩))
    rw [← code_of_children_nil hnil]
    refine hf.settled _ ?_
    rw [← ((near_unparen a).trans ha).binding? (isScope_of_kind hident (by decide)) hc]
    exact h hident

/-- As a receiver an element weighs what it weighs by itself. -/
theorem Gentle.tally_element (hf : Gentle f c) (hc : c.isScope = false)
    (hs : a.node.Shaped) (ha : a.Near c) (h : a.isElement = true) :
    a.node.tally f ⟨.receiver, d, c.place.frames⟩ = a.node.weight f d c.place.frames := by
  have hkind : ∀ s ∈ elementSymbols, s ≠ .parenthesizedExpression := by decide
  refine hf.tally_settled hc hs ha ?_ fun hident => settled_of_isElementWithin hident h
  obtain ⟨s, hs, hk⟩ := List.any_eq_true.1 (isAny_of_isElementWithin h)
  exact is_false_of_kind (is_iff.1 hk) (hkind s hs)

/-- So it does inside a member access. -/
theorem Gentle.tally_inside (hf : Gentle f c) (hc : c.isScope = false)
    (hs : a.node.Shaped) (hop : a.node.isOperand = true) (ha : a.Near c)
    (h : a.isElement = true) {s : Standing}
    (hstanding : s ∈ [Standing.plain, .method, .receiver, .receiverWithin]) :
    a.node.tally f ⟨s, d, c.place.frames⟩ = a.node.weight f d c.place.frames := by
  simp only [List.mem_cons, List.not_mem_nil, or_false] at hstanding
  rcases hstanding with rfl | rfl | rfl | rfl
  · rfl
  · exact (isWhole_of_isElement hop h).tally_eq (by simp [Standing.outside])
      (by simp [Standing.outside])
  · exact hf.tally_element hc hs ha h
  · rw [tally, ← show Standing.within .receiver = .receiverWithin from rfl,
      uses_within (by decide) hop]
    exact hf.tally_element hc hs ha h

theorem Gentle.tally_document (hf : Gentle f c) (hc : c.isScope = false)
    (ho : o.Near c) (hos : o.isScope = false) (h : o.isGlobal "document" = true) :
    f (.receiver c.place.frames "document") = 0 := by
  refine hf.settled _ ?_
  rw [← ho.binding? hos hc]
  exact settled_of_isGlobal h

/-- A call of the factory uses its name and its argument. -/
theorem tally_of_isFactoryCall {names : List Text} {p : Place} (hs : o.node.Shaped)
    (hu : o.unparen = o) (hf : o.isFactoryCall names = .ok true)
    (ha : o.arguments = [a]) : ∃ t, ∀ f, o.node.tally f p = f (.called t p.depth)
      + (a.node.weight f (p.depth + 1) p.frames + f .argument) + weigh f p.useOfCall := by
  obtain ⟨g, hg, hident, -, -⟩ := isFactoryCall_callee hf
  obtain ⟨hk, -⟩ := isFactoryCall_spec hf
  rw [hu] at hg hk
  refine ⟨g.code, fun f => ?_⟩
  rw [tally_factoryCall hs hk hg hident ha, tally_argument]
  exact isOperand_of_mem_arguments (c := o) (by rw [ha]; exact List.mem_singleton.2 rfl)

theorem tally_elementById (hf : Gentle f c) {p : Place}
    (hdoc : f (.receiver p.frames "document") = 0) (i : Text) :
    (elementById i).tally f p = f .argument + weigh f p.useOfCall := by
  have hstring : (Build.string i).isOperand = true := by
    unfold Build.string Build.quoted
    split <;> rfl
  rw [elementById, Build.tally_methodCall rfl, Build.tally_identifier_receiver, hdoc,
    hf.method _ (by decide), List.map_singleton, List.sum_singleton, tally_argument hstring, Build.weight_string]
  omega

theorem isStableName_of_isStableAt (hk : a.unparen.is .identifier = true)
    (h : a.isStableAt o = .ok true) :
    a.unparen.isStableName o a.unparen.code = true := by
  have hany : a.unparen.node.isAny elementSymbols = true :=
    isAny_iff.2 ⟨.identifier, by decide, is_iff.1 hk⟩
  have hthis : a.unparen.is .thisExpr = false :=
    is_false_of_kind (is_iff.1 hk) (by decide)
  unfold isStableAt at h
  simp only [isLiteral_of_isAny hany, hk, hthis] at h
  by_cases hword : a.unparen.code.isOneOf ["undefined", "arguments"] = true
  · simp [hword, bind, Except.bind, pure, Except.pure] at h
  · simpa [hword, bind, Except.bind, pure, Except.pure] using h

/-- What the element behind a receiver uses in its place. -/
theorem ElementOf.trades (hid : c.root.node.Identified)
    (hcs : c.isScope = false) (hos : o.Stands) (ho : o.Near c) (hu : o.unparen = o)
    (h : ElementOf context o target) (hde : e ≤ d + 1) :
    ∃ lost, Fetched (c.root.node.uses ⟨.plain, 0, []⟩) c.place.frames d lost
      ∧ ∀ f, Gentle f c → AtMost f
        (target.tally f ⟨.receiver, e, c.place.frames⟩ + weigh f lost)
        (o.node.tally f ⟨.receiver, d, c.place.frames⟩) := by
  cases h with
  | @moved a hf ha helement =>
      have hmem : a ∈ o.arguments := by rw [ha]; exact List.mem_singleton.2 rfl
      obtain ⟨t, ht⟩ := tally_of_isFactoryCall
        (p := ⟨.receiver, d, c.place.frames⟩) hos.node hu hf ha
      obtain ⟨hk, -⟩ := isFactoryCall_spec hf
      rw [hu] at hk
      refine ⟨[.called t d, .argument], .direct (List.Subset.refl _), fun f hgentle => ?_⟩
      have hnear := (near_of_mem_arguments hmem hk (by decide)).trans ho
      have hshaped := shaped_of_mem_walk hos.node (mem_walk_of_mem_arguments hmem)
      rw [ht, hgentle.tally_element hcs hshaped hnear helement]
      have hweight : AtMost f (a.node.weight f e c.place.frames)
          (a.node.weight f (d + 1) c.place.frames) := weight_atMost hgentle.deeper hde
      simp only [weigh_cons, weigh_nil, Place.useOfCall, Standing.outside]
      exact ⟨by have := hweight.le; omega, fun hflat => by have := hweight.eq hflat; omega⟩
  | @lookedUp a i hf ha hsel hglobal =>
      have hmem : a ∈ o.arguments := by rw [ha]; exact List.mem_singleton.2 rfl
      obtain ⟨t, ht⟩ := tally_of_isFactoryCall
        (p := ⟨.receiver, d, c.place.frames⟩) hos.node hu hf ha
      obtain ⟨hk, -⟩ := isFactoryCall_spec hf
      rw [hu] at hk
      refine ⟨[.called t d], .direct (List.nil_subset _), fun f hgentle => .of_eq ?_⟩
      obtain ⟨v, hv, -⟩ := idSelector?_eq_some hsel
      have hshaped := shaped_of_mem_walk hos.node (mem_walk_of_mem_arguments hmem)
      rw [ht, tally_elementById (p := ⟨.receiver, e, c.place.frames⟩) hgentle
        (hgentle.tally_document hcs ho (isScope_of_kind hk (by decide)) hglobal),
        weight_of_stringValue hshaped hv]
      simp only [weigh_cons, weigh_nil, Place.useOfCall, Standing.outside]
      omega
  | @copied init a hk hr hf ha helement hstable =>
      have hoscope := isScope_of_kind hk (by decide)
      have hframes : o.scopeChain.map frame = c.place.frames := by
        rw [map_frame_scopeChain hoscope, ho.frames]
      have hroot : ∀ {v : Cursor}, v.root = c.root → v.Placed →
          v ∈ (top c.root.node).walk := by
        intro v hv hp
        have := hp.mem_walk_root
        rwa [hv] at this
      have homem := hroot ho.root hos.placed
      have hinit := resolve?_mem_walk hr
      have hamem : a ∈ o.root.walk := mem_walk_trans hinit
        (mem_walk_trans (unparen_mem_walk init)
          (mem_walk_of_mem_arguments (by rw [ha]; exact List.mem_singleton.2 rfl)))
      have href := isReference_of_isStableAt helement hstable
      have halias : isAlias (c.root.node.uses ⟨.plain, 0, []⟩) c.place.frames o.code = true := by
        rw [← hframes]
        exact isAlias_of_resolve? hid homem hr (wraps_of_isFactoryCall hf ha href)
      have hashaped : a.node.Shaped := shaped_of_mem_walk hos.shaped hamem
      refine ⟨[.receiver c.place.frames o.code], .bound halias, fun f hgentle => .of_eq ?_⟩
      have honil : o.node.children = [] := hos.node.formed.plain (by
        rw [isAtom, Bool.or_eq_true]
        exact Or.inr (isAny_iff.2 ⟨.identifier, by decide, is_iff.1 hk⟩))
      have hotally : o.node.tally f ⟨.receiver, d, c.place.frames⟩
          = f (.receiver c.place.frames o.code) := by
        have hk : o.node.is .identifier = true := hk
        rw [tally_children_nil honil, use_receiver, head_is, if_pos hk, weigh_cons,
          weigh_nil, Nat.add_zero, ← code_of_children_nil honil]
        rfl
      have htarget : a.node.copy.tally f ⟨.receiver, e, c.place.frames⟩ = 0 := by
        have hcopy : a.node.copy.Shaped := shaped_copy.2 hashaped
        have hstrip : a.node.copy.strip = a.unparen.node.copy := by
          rw [strip_copy, node_unparen]
        rw [tally_receiver_of hcopy, weight_of_isReference hcopy
          ((isReference_copy a.node).trans href)]
        · rw [hstrip, is_copy]
          obtain ⟨s, hs, hkind⟩ := List.any_eq_true.1 href
          have hplain : ∀ s ∈ [Symbol.identifier, .thisExpr],
              s ≠ .parenthesizedExpression := by decide
          rw [node_unparen]
          exact is_false_of_kind (is_iff.1 hkind) (hplain s hs)
        · -- the name means there what it means where it is wrapped
          rw [hstrip, is_copy]
          intro hident
          have hanil : a.unparen.node.children = [] :=
            (hashaped.of_mem_walk (node_mem_walk (unparen_mem_walk a))).formed.plain (by
              rw [isAtom, Bool.or_eq_true]
              exact Or.inr (isAny_iff.2 ⟨.identifier, by decide, is_iff.1 hident⟩))
          have hword : a.unparen.node.copy.head.word = a.unparen.code := by
            rw [← code_of_children_nil (by rw [children_copy, hanil]; rfl), code_copy]
            rfl
          rw [hword]
          refine hgentle.settled _ ?_
          rw [← ho.binding? hoscope hcs]
          rw [ho.root] at hamem
          exact settled_of_isStableName
            (mem_walk_trans hamem (unparen_mem_walk a)) homem
            (settled_of_isElementWithin hident helement)
            (isStableName_of_isStableAt hident hstable)
      rw [hotally, htarget, weigh_cons, weigh_nil]
      omega

end Elements

-- ================================================================= forms

/-- Calls of identifiers weigh the more the deeper they are. -/
def calling : Use → Nat
  | .called _ d => d + 1
  | _ => 0

/-- Calls of identifiers and arguments, which a rewrite may add. -/
def Use.isPassing : Use → Bool
  | .called _ _ => true
  | .argument => true
  | _ => false

/-- What is lost is worth more than what is gained, by what is declared. -/
inductive Lightens (us : List Use) : List Use → List Use → Prop where
  | template {lost : List Use} : .tagged ∈ lost → Lightens us lost []
  | name {fs : List Frame} {t : Text} {gained : List Use} : isAlias us fs t = true →
    (∀ u ∈ gained, u.isPassing = true) → Lightens us [.receiver fs t] gained
  | call {t : Text} {d : Nat} {us' gained : List Use} : us' ⊆ [.argument] →
    (∀ u ∈ gained, u.isPassing = true) → weigh calling gained ≤ d →
    Lightens us (.called t d :: us') gained
  | argument {fs : List Frame} {t : Text} : Lightens us [.argument, .receiver fs t] []

section Forms

variable {context : RuleContext} {c m o arg : Cursor} {name : Text}
  {methods : List String} {new target : Node} {us lost gained : List Use} {fs : List Frame}
  {d e : Nat}

theorem Fetched.lightens (h : Fetched us fs d lost)
    (hpass : ∀ u ∈ gained, u.isPassing = true) (hle : weigh calling gained ≤ d) :
    Lightens us lost gained := by
  cases h with
  | direct hargs => exact .call hargs hpass hle
  | bound halias => exact .name halias hpass

/-- A template in the place of the arguments is found out. -/
theorem Cursor.templateUses_cases (hs : c.node.Shaped) (d : Nat) (fs : List Frame) :
    c.templateUses d fs = [] ∨ .tagged ∈ c.templateUses d fs := by
  unfold Cursor.templateUses taggedTemplate?
  cases ha : c.child? .arguments with
  | none => exact Or.inl rfl
  | some a =>
      cases hk : a.is .arguments with
      | true => exact Or.inl (by simp [hk])
      | false =>
          have hk : a.node.is .arguments = false := hk
          simp only [show a.is .arguments = false from hk, Bool.false_eq_true, if_false,
            Option.toList_some, List.flatMap_singleton]
          cases hop : a.node.isOperand with
          | true =>
              refine Or.inr ?_
              rw [uses_eq, use_list]
              simp [hop, hk]
          | false =>
              refine Or.inl ?_
              rw [uses_of_not_isOperand (shaped_of_child? hs ha).formed hop, use_list]
              simp [hop]

theorem isSpent_of_subset (h : methods ⊆ spentMethods)
    (hname : name.isOneOf methods = true) : isSpent name = true := by
  obtain ⟨w, hw, heq⟩ := List.any_eq_true.1 hname
  exact List.any_eq_true.2 ⟨w, h hw, heq⟩

/-- The factory as a receiver is a name. -/
theorem tally_of_isFactoryIdentifier {names : List Text} (hs : o.node.Shaped)
    (hf : o.isFactoryIdentifier names = .ok true) : ∃ t, ∀ f d fs,
      o.unparen.node.tally f ⟨.receiver, d, fs⟩ = f (.receiver fs t) := by
  unfold isFactoryIdentifier at hf
  simp only at hf
  split at hf
  · next hident =>
      rw [Bool.and_eq_true] at hident
      have hk : o.unparen.node.is .identifier = true := hident.1
      have hnil : o.unparen.node.children = [] :=
        (shaped_of_mem_walk hs (unparen_mem_walk o)).formed.plain (by
          rw [isAtom, Bool.or_eq_true]
          exact Or.inr (isAny_iff.2 ⟨.identifier, by decide, is_iff.1 hk⟩))
      refine ⟨o.unparen.node.head.word, fun f d fs => ?_⟩
      rw [tally_children_nil hnil, use_receiver, head_is, if_pos hk, weigh_cons, weigh_nil,
        Nat.add_zero]
  · cases hf

/-- As a receiver an array weighs what it weighs by itself. -/
theorem Gentle.tally_array {f : Use → Nat} {a : Cursor} (hf : Gentle f c)
    (hc : c.isScope = false) (hs : a.node.Shaped) (ha : a.Near c)
    (h : a.isArray true = true) : a.node.tally f ⟨.receiver, d, c.place.frames⟩
      = a.node.weight f d c.place.frames := by
  unfold isArray at h
  cases hsize : a.node.size with
  | zero => rw [hsize] at h; cases h
  | succ fuel =>
      rw [hsize, isArrayWithin] at h
      refine hf.tally_settled hc hs ha ?_ fun hident => ?_
      · rw [Bool.eq_false_iff]
        intro hk
        have hne : ∀ s ≠ Symbol.parenthesizedExpression, a.unparen.is s = false :=
          fun s hs => Node.is_false_of_kind (Node.is_iff.1 hk) hs.symm
        simp [hne .array (by decide), hne .identifier (by decide), isArrayFactoryCall,
          methodReceiver?, hne .callExpression (by decide)] at h
      · have harray : a.unparen.is .array = false :=
          Node.is_false_of_kind (Node.is_iff.1 hident) (by decide)
        simp only [harray, hident, Bool.false_eq_true, if_false, if_true,
          Bool.true_and] at h
        exact settled_of_isDenseName h

/-- As a receiver a string weighs what it weighs by itself. -/
theorem Gentle.tally_string {f : Use → Nat} {a : Cursor} (hf : Gentle f c)
    (hc : c.isScope = false) (hs : a.node.Shaped) (ha : a.Near c)
    (h : a.isString = true) : a.node.tally f ⟨.receiver, d, c.place.frames⟩
      = a.node.weight f d c.place.frames := by
  obtain ⟨s, hmem, hk⟩ := Node.isAny_iff.1 (Cursor.isAny_of_isString h)
  have hne : ∀ s ∈ [Symbol.string, .templateString, .callExpression],
      s ≠ .parenthesizedExpression ∧ s ≠ .identifier := by decide
  refine hf.tally_settled hc hs ha
    (Node.is_false_of_kind hk (hne s hmem).1) fun hident => ?_
  rw [Cursor.is, Node.is_false_of_kind hk (hne s hmem).2] at hident
  cases hident

/-- A method call weighs at least its receiver and the rest. -/
theorem tally_methodCall_atMost {f : Use → Nat} (hs : c.node.Shaped)
    (hk : c.is .callExpression = true) (hm : c.calledMember? = some (m, name))
    (ho : m.child? .object = some o) (p : Place) :
    AtMost f (o.unparen.node.tally f ⟨.receiver, p.depth + 1, p.frames⟩ + c.rest f p)
      (c.node.tally f p) := by
  refine ⟨?_, fun hflat => (tally_methodCall_eq hflat.method hs hk hm ho p).symm⟩
  have hle := tally_methodCall_le (f := f) hs hk hm ho p
  omega

theorem AtMost.of_sums {f : Use → Nat} {a b x y z : Nat} (h : AtMost f a b)
    (h' : AtMost f (b + x) y) (hz : z = a + x) : AtMost f z y :=
  ⟨by have := h.le; have := h'.le; omega,
    fun hf => by have := h.eq hf; have := h'.eq hf; omega⟩

/-- What rules write that keep the name of their method. -/
inductive KeepingForm (context : RuleContext) (c m : Cursor) (name : Text) :
    Node → Prop where
  /-- The element has a method of this name. -/
  | tell {target : Node} : m.HasElement context target →
    KeepingForm context c m name (Build.methodCall target name (c.arguments.map (·.node)))
  /-- It has, and what this returns is wrapped again. -/
  | ask {factory t : Text} {target : Node} {selector : Cursor} :
    m.HasElement context target → c.arguments = [selector] →
    selector.node.stringValue = .ok (some t) → KeepingForm context c m name
      (rewrap factory (Build.methodCall target name [selector.node]))
  /-- The first argument of a function of the factory has one. -/
  | lend {o receiver : Cursor} {args : List Cursor} : m.child? .object = some o →
    o.isFactoryIdentifier context.factoryNames = .ok true →
    c.arguments = receiver :: args → receiver.isArray true = true ∨ receiver.isString = true →
    KeepingForm context c m name (Build.methodCall receiver.node name (args.map (·.node)))

/-- A rule that does not spend its method keeps the name of it. -/
theorem MethodForm.keeping (h : MethodForm context c m name methods new)
    (hname : name.isOneOf methods = true) (hspent : isSpent name = false) :
    KeepingForm context c m name new := by
  have hkept : ∀ {P : Prop}, methods ⊆ spentMethods → P := fun hsub => by
    rw [isSpent_of_subset hsub hname] at hspent
    cases hspent
  have hone : ∀ {s : String}, name.isOneOf [s] = true → Text.ofString s = name := fun h => by
    simpa [Text.isOneOf] using h
  cases h with
  | tell _ _ _ hsub _ _ _ _ => exact hkept hsub
  | read hsub _ _ _ => exact hkept hsub
  | write _ hsub _ _ _ => exact hkept hsub
  | display _ hsub _ _ => exact hkept hsub
  | remove hremove ht hargs =>
      subst hremove
      have hform : KeepingForm context c m "remove" _ := .tell ht
      rwa [hargs] at hform
  | empty hne _ _ =>
      obtain ⟨w, hw, heq⟩ := List.any_eq_true.1 hname
      simp only [List.mem_cons, List.not_mem_nil, or_false] at hw
      rw [beq_iff_eq] at heq
      rcases hw with rfl | rfl
      · exact absurd heq.symm hne
      · rw [← heq] at hspent
        exact absurd hspent (by decide)
  | insert ht hargs =>
      have hform : KeepingForm context c m name _ := .tell ht
      rwa [hargs] at hform
  | closest _ ht hargs hv =>
      obtain rfl := hone hname
      exact .ask ht hargs hv
  | map ho hfact hargs harray =>
      obtain rfl := hone hname
      exact .lend ho hfact hargs (Or.inl harray)
  | trim ho hfact hargs hstring =>
      obtain rfl := hone hname
      exact .lend ho hfact hargs (Or.inr hstring)
  | _ => exact hkept (by decide)

/-- A rule that keeps the name of its method trades what lightens the
program. -/
theorem KeepingForm.trades (hc : c.Stands) (hid : c.root.node.Identified)
    (hk : c.is .callExpression = true) (hm : c.calledMember? = some (m, name))
    (h : KeepingForm context c m name new) (hspent : isSpent name = false) :
    ∃ lost gained, new.Trades c lost gained
      ∧ Lightens (c.root.node.uses ⟨.plain, 0, []⟩) lost gained := by
  have hcs : c.isScope = false := isScope_of_kind hk (by decide)
  -- the element behind the receiver, one call farther in or not
  have fetch : ∀ {target}, m.HasElement context target → ∀ e ≤ c.place.depth + 2,
      ∃ o lost, m.child? .object = some o
        ∧ Fetched (c.root.node.uses ⟨.plain, 0, []⟩) c.place.frames (c.place.depth + 1) lost
        ∧ ∀ f, Gentle f c → AtMost f
          (target.tally f ⟨.receiver, e, c.place.frames⟩ + weigh f lost)
          (o.unparen.node.tally f ⟨.receiver, c.place.depth + 1, c.place.frames⟩) := by
    rintro target ⟨o, ho, helement⟩ e he
    have hos := hc.of_mem_walk ((below_of_object hm ho).of_mem_walk
      (unparen_mem_walk o)).mem_walk
    obtain ⟨lost, hlost, htrade⟩ := helement.trades hid hcs hos
      (near_of_object hk hm ho) (unparen_unparen o) (e := e) (d := c.place.depth + 1) he
    exact ⟨o, lost, ho, hlost, htrade⟩
  have hcall : ∀ {o} (f : Use → Nat), m.child? .object = some o → AtMost f
      (o.unparen.node.tally f ⟨.receiver, c.place.depth + 1, c.place.frames⟩
        + c.rest f c.place) (c.node.tally f c.place) := fun f ho =>
    tally_methodCall_atMost hc.node hk hm ho c.place
  have harg : ∀ a ∈ c.arguments, a.node.Shaped ∧ a.node.isOperand = true ∧ a.Near c :=
    fun a ha => ⟨shaped_of_mem_walk hc.node (mem_walk_of_mem_arguments ha),
      isOperand_of_mem_arguments ha, near_of_mem_arguments ha hk (by decide)⟩
  cases h with
  | @tell target ht =>
      obtain ⟨o, lost, ho, hlost, htrade⟩ := fetch ht (c.place.depth + 1) (by omega)
      refine ⟨lost ++ c.templateUses c.place.depth c.place.frames, [], fun f hf => ?_, ?_⟩
      · rw [weigh_nil, Nat.add_zero]
        refine (htrade f hf).of_sums (hcall f ho) ?_
        rw [rest, Build.tally_methodCall ht.isOperand, hf.method _ hspent, weigh_append,
          List.map_map, Function.comp_def]
        omega
      · rcases templateUses_cases hc.node c.place.depth c.place.frames with hnil | hmem
        · rw [hnil, List.append_nil]
          exact hlost.lightens (List.forall_mem_nil _) (Nat.zero_le _)
        · exact .template (List.mem_append_right _ hmem)
  | @ask factory t target selector ht hargs hv =>
      obtain ⟨o, lost, ho, hlost, htrade⟩ := fetch ht (c.place.depth + 2) (by omega)
      obtain ⟨hshaped, hop, -⟩ := harg selector (by rw [hargs]; exact List.mem_singleton.2 rfl)
      refine ⟨lost, [.called factory c.place.depth, .argument], fun f hf => ?_,
        hlost.lightens (by simp [Use.isPassing]) (by simp [calling])⟩
      have htrade := htrade f hf
      have hcall := hcall f ho
      have hselector : ∀ e, selector.node.tally f ⟨.argument, e, c.place.frames⟩
          = f .argument := fun e => by
        rw [tally_argument hop, weight_of_stringValue hshaped hv, Nat.zero_add]
      have hinner : (Build.methodCall target name [selector.node]).tally f
          ⟨.argument, c.place.depth + 1, c.place.frames⟩
            = target.tally f ⟨.receiver, c.place.depth + 2, c.place.frames⟩
              + f .argument + f .argument := by
        rw [Build.tally_methodCall ht.isOperand, hf.method _ hspent]
        simp [hselector, Place.useOfCall, Standing.outside]
      rw [rest, hargs, templateUses_of_arguments hargs] at hcall
      rw [rewrap, Build.tally_call rfl, Build.tally_identifier_callee]
      simp only [List.map_cons, List.map_nil, List.sum_cons, List.sum_nil, weigh_cons,
        weigh_nil, hinner, hselector] at hcall ⊢
      exact ⟨by have := htrade.le; have := hcall.le; omega,
        fun hflat => by have := htrade.eq hflat; have := hcall.eq hflat; omega⟩
  | @lend o receiver args ho hfact hargs hkind =>
      have hos := shaped_of_mem_walk hc.node (below_of_object hm ho).mem_walk
      obtain ⟨t, ht⟩ := tally_of_isFactoryIdentifier hos hfact
      obtain ⟨hshaped, hop, hnear⟩ := harg receiver (by rw [hargs]; exact List.mem_cons_self)
      refine ⟨[.argument, .receiver c.place.frames t], [], fun f hf => ?_, .argument⟩
      have hreceiver : receiver.node.tally f ⟨.receiver, c.place.depth + 1, c.place.frames⟩
          = receiver.node.weight f (c.place.depth + 1) c.place.frames :=
        hkind.elim (hf.tally_array hcs hshaped hnear) (hf.tally_string hcs hshaped hnear)
      rw [weigh_nil, Nat.add_zero]
      refine (AtMost.refl f _).of_sums (hcall f ho) ?_
      rw [ht, rest, hargs, templateUses_of_arguments hargs, Build.tally_methodCall hop,
        hf.method _ hspent, hreceiver, List.map_cons, List.sum_cons, tally_argument hop,
        List.map_map, Function.comp_def]
      simp only [weigh_cons, weigh_nil]
      omega

/-- Inside a member access nothing is called or is an argument. -/
theorem Node.Inside.standing {above : List (Node × Nat)} (h : Inside above)
    (r : Option Role) : (usage.handedIn ⟨.plain, 0, []⟩ r above).standing
      ∈ [Standing.plain, .method, .receiver, .receiverWithin] := by
  induction h generalizing r with
  | @member p i up hk =>
      have hhead : p.head.is .memberExpression = true := hk
      show ((usage.handedIn ⟨.plain, 0, []⟩ p.role up).below p.head r).standing ∈ _
      have hcall : p.head.is .callExpression = false := Head.is_false hhead (by decide)
      unfold Place.below
      rw [hcall, hhead]
      simp only [Bool.false_eq_true, if_false, if_true]
      split <;> simp
  | @within p i up hk _ ih =>
      have hhead : p.head.is .parenthesizedExpression = true := hk
      show ((usage.handedIn ⟨.plain, 0, []⟩ p.role up).below p.head r).standing ∈ _
      rw [Place.below_parentheses hhead]
      have hwithin : ∀ s ∈ [Standing.plain, .method, .receiver, .receiverWithin],
          s.within ∈ [Standing.plain, .method, .receiver, .receiverWithin] := by decide
      exact hwithin _ (ih p.role)

theorem inside_of_enclosed {d p : Cursor} (h : Enclosed c d) (hd : d.Placed)
    (hp : d.parent? = some p) (hk : p.is .memberExpression = true) : Inside c.above := by
  induction h with
  | refl d =>
      obtain ⟨i, -, ha⟩ := mem_children.1 (mem_children_of_parent? hd hp)
      rw [ha]
      exact .member hk
  | parens hpk hmem _ ih =>
      obtain ⟨i, -, ha⟩ := mem_children.1 hmem
      rw [ha]
      exact .within hpk (ih hd hp)

/-- A wrapper that gives way to its element is the object of a member
access. -/
theorem inside_of_isChainFoldable {allowed : List Text} (hc : c.Placed)
    (h : c.isChainFoldable allowed = true) : Inside c.above := by
  have hmem : c ∈ (top c.root.node).walk := hc.mem_walk_root
  have hclimb := (mem_walk_top.1 ((enclosed_climb hc).mem_walk hmem)).1
  obtain ⟨p, hp, hk⟩ := exists_member_of_isChainFoldable h
  exact inside_of_enclosed (enclosed_climb hc) hclimb hp hk

/-- A rule for calls of the factory trades what lightens the program. -/
theorem FactoryForm.trades (hc : c.Stands) (hu : c.unparen = c)
    (hf : c.isFactoryCall context.factoryNames = .ok true) (ha : c.arguments = [arg])
    (h : FactoryForm context c arg new) : ∃ lost gained, new.Trades c lost gained
      ∧ Lightens us lost gained := by
  have hk : c.is .callExpression = true := by
    have hk := (isFactoryCall_spec hf).1
    rwa [hu] at hk
  have hcs : c.isScope = false := isScope_of_kind hk (by decide)
  have hmem : arg ∈ c.arguments := by rw [ha]; exact List.mem_singleton.2 rfl
  have hshaped := shaped_of_mem_walk hc.node (mem_walk_of_mem_arguments hmem)
  have hop := isOperand_of_mem_arguments hmem
  obtain ⟨t, ht⟩ := tally_of_isFactoryCall (p := c.place) hc.node hu hf ha
  have hdocument : ∀ {f}, Gentle f c → c.isGlobal "document" = true →
      f (.receiver c.place.frames "document") = 0 := fun hgentle hglobal =>
    hgentle.tally_document hcs (.refl c) hcs hglobal
  have hcall : ∀ us' ⊆ [Use.argument], ∀ gained ⊆ [Use.argument],
      Lightens us (.called t c.place.depth :: us') gained := by
    intro us' hus gained hg
    have hpass : ∀ u ∈ gained, u = .argument := fun u hu =>
      List.mem_singleton.1 (hg hu)
    refine .call hus (fun u hu => by rw [hpass u hu]; rfl) ?_
    have hzero : weigh calling gained = 0 :=
      weigh_eq_zero fun u hu => by rw [hpass u hu]; rfl
    omega
  cases h with
  | @byId i hsel hglobal =>
      obtain ⟨v, hv, -⟩ := idSelector?_eq_some hsel
      refine ⟨_, [], fun f hgentle => .of_eq ?_,
        hcall [] (List.nil_subset _) [] (List.nil_subset _)⟩
      rw [ht, tally_elementById hgentle (hdocument hgentle hglobal),
        weight_of_stringValue hshaped hv, weigh_cons, weigh_nil]
      omega
  | @byClass v hv hglobal =>
      refine ⟨_, [], fun f hgentle => .of_eq ?_,
        hcall [] (List.nil_subset _) [] (List.nil_subset _)⟩
      rw [ht, Rules.queryAll, Build.tally_methodCall rfl, Build.tally_identifier_receiver,
        hdocument hgentle hglobal, hgentle.method _ (by decide)]
      simp only [List.map_singleton, List.sum_singleton, tally_argument hop, weigh_cons,
        weigh_nil]
      omega
  | unwrap helement hfold =>
      refine ⟨_, [], fun f hgentle => ?_,
        hcall [.argument] (List.Subset.refl _) [] (List.nil_subset _)⟩
      have hinside := (inside_of_isChainFoldable hc.placed hfold).standing c.node.role
      have hnear := near_of_mem_arguments hmem hk (by decide)
      have harg : arg.node.tally f c.place
          = arg.node.weight f c.place.depth c.place.frames :=
        hgentle.tally_inside hcs hshaped hop hnear helement hinside
      have huse : c.place.useOfCall = [] := by
        have hnone : ∀ s ∈ [Standing.plain, .method, .receiver, .receiverWithin],
            s.outside ∉ [Standing.callee, .list, .argument] := by decide
        have hno := hnone _ hinside
        simp only [List.mem_cons, List.not_mem_nil, or_false, not_or] at hno
        unfold Place.useOfCall
        split
        · next heq => exact absurd heq hno.1
        · next heq => exact absurd heq hno.2.1
        · next heq => exact absurd heq hno.2.2
        · rfl
      have hweight : AtMost f (arg.node.weight f c.place.depth c.place.frames)
          (arg.node.weight f (c.place.depth + 1) c.place.frames) :=
        weight_atMost hgentle.deeper (Nat.le_succ c.place.depth)
      rw [ht, harg, huse, weigh_cons, weigh_cons, weigh_nil]
      exact ⟨by have := hweight.le; omega, fun hflat => by have := hweight.eq hflat; omega⟩
  | loaded _ hglobal =>
      refine ⟨_, [.argument], fun f hgentle => .of_eq ?_,
        hcall [] (List.nil_subset _) _ (List.Subset.refl _)⟩
      have hstring : (Build.string "DOMContentLoaded").isOperand = true := by
        decide
      rw [ht, Rules.whenLoaded, Build.tally_methodCall rfl,
        Build.tally_identifier_receiver, hdocument hgentle hglobal,
        hgentle.method _ (by decide)]
      simp only [List.map_cons, List.map_nil, List.sum_cons, List.sum_nil,
        tally_argument hop, tally_argument hstring, Build.weight_string, weigh_cons,
        weigh_nil]
      omega

end Forms

end Codemod
