/-
A statement that takes a name's value away.

Put into a list of statements anywhere below the scope that binds a
name, a statement that writes the name, or can do so through `with` or
`eval`, leaves the name where it was bound (`bindingScope?_place`), and
the name does not resolve any more.

Main statement: `Injects.invalidates`. The name resolves to nothing, its
uses are no wrappers, and its initializer is not folded. The guard for
the fold answers whenever the test for a call of the factory does, which
a declaration of the factory with an unreadable escape prevents
(`isFoldable_fails_after_injection`).
-/
import Codemod.Proofs.Scope.Constancy
import Codemod.Proofs.Scope.Insertion
import Codemod.Proofs.Wrapper.Uses

namespace Codemod

open Cursor

variable {e : Insertion} {c d init s t v x : Cursor} {n : Node} {name : Text}

/-- The kinds of node that are names of variables, in expressions and in
patterns. -/
def wordSymbols : List Symbol :=
  [.identifier, .shorthandPropertyIdentifier, .shorthandPropertyIdentifierPattern]

theorem Node.isAny_mono {ss ss' : List Symbol} {m : Node} (hss : ss ⊆ ss')
    (h : m.isAny ss = true) : m.isAny ss' = true := by
  obtain ⟨k, hk, hm⟩ := Node.isAny_iff.1 h
  exact Node.isAny_iff.2 ⟨k, hss hk, hm⟩

-- ============================================================= statements

/-- Something below the place writes the name, `undefined` apart, or can
change what names mean. -/
def Cursor.Disturbs (c : Cursor) (name : Text) : Prop :=
  ∃ v ∈ c.walk,
    (∃ x, v.Assigns x ∧ x.code = name ∧ x.is .undefinedLit = false)
      ∨ v.is .withStatement = true
      ∨ (v.is .callExpression = true ∧ ∃ f, v.child? .function = some f
        ∧ f.is .identifier = true ∧ f.code = Text.ofString "eval")

/-- The statement declares no binding of the name: it shares no node with
an identifier that does. -/
def Insertion.Spares (e : Insertion) (n : Node) (name : Text) : Prop :=
  ∀ d ∈ (top (e.tree n)).declarations, d.name = name →
    ∀ m ∈ d.identifier.node.walk, m.id ∉ e.statement.walk.map (·.id)

/-- A new statement is put into a list below a scope, behind the token
that opens the list. It declares no binding of a name that the scope
binds, and it disturbs the name. -/
structure Injects (e : Insertion) (n : Node) (scope list : Cursor) (name : Text) :
    Prop where
  below : list ∈ scope.walk
  kind : list.isAny listSymbols = true
  id : list.node.id = some e.list
  room : e.index ≤ list.node.children.length
  behind : list.above ≠ [] → 0 < e.index
  fresh : (e.tree n).Identified
  spares : e.Spares n name
  disturbs : (e.slot list).Disturbs name

theorem Cursor.Disturbs.of_scope (h : c.Disturbs name) (hc : c ∈ s.walk) :
    s.hasDynamicScope = true ∨ s.isWritten name = true := by
  obtain ⟨v, hv, h⟩ := h
  have hv := mem_walk_trans hc hv
  rcases h with ⟨x, hx, rfl, hlit⟩ | hwith | ⟨hk, f, hf, hfk, hcode⟩
  · right
    by_contra hwritten
    rw [hx.is_undefinedLit hv (by simpa using hwritten)] at hlit
    cases hlit
  · exact Or.inl (List.any_eq_true.2 ⟨v, hv, by rw [hwith, Bool.true_or]⟩)
  · exact Or.inl (hasDynamicScope_of_bare_eval hv hk hf hfk hcode)

-- =============================================================== bindings

namespace Insertion

/-- A scope is still the first to declare a name, if it declares the name
and the scopes before it do not. -/
theorem lookUp_place {ds ds' found : List Declaration} {ss : List Cursor}
    (h : lookUp ds ss = some (s, found))
    (hempty : ∀ r ∈ ss, inScope ds r = [] → inScope ds' (e.place r) = [])
    (hs : inScope ds' (e.place s) ≠ []) :
    lookUp ds' (ss.map e.place) = some (e.place s, inScope ds' (e.place s)) := by
  induction ss with
  | nil => cases h
  | cons r ss ih =>
      rw [List.map_cons, lookUp]
      rw [lookUp] at h
      split at h
      · next hr =>
          rw [hempty r List.mem_cons_self hr]
          exact ih h fun q hq => hempty q (List.mem_cons_of_mem _ hq)
      · obtain ⟨rfl, -⟩ := Prod.mk.inj (Option.some.inj h)
        split
        · next hr => exact absurd hr hs
        · rfl

/-- An identifier that shares no node with the statement stays as it
is. -/
theorem tree_eq_of_apart (h : e.Fits x.node)
    (hapart : ∀ m ∈ (e.place x).node.walk, m.id ∉ e.statement.walk.map (·.id)) :
    e.tree x.node = x.node := by
  refine tree_of_not_mem e fun m hm hid => ?_
  rw [← map_node_walk] at hm
  obtain ⟨t, ht, rfl⟩ := List.mem_map.1 hm
  have hmem : e.slot t ∈ (e.place x).walk :=
    (mem_walk_place h).2 (Or.inr ⟨t, ht, hid, self_mem_walk _⟩)
  exact hapart e.statement (node_mem_walk hmem)
    (List.mem_map_of_mem (Node.self_mem_walk e.statement))

/-- What declares the name in the new tree declared it in the old one. -/
theorem exists_declaration_of_place (hfit : e.Fits n) (hspares : e.Spares n name)
    {d : Declaration} (hd : d ∈ (top (e.tree n)).declarations) (hname : d.name = name)
    (hs : d.scope = some s) :
    ∃ r, s = e.place r ∧ ∃ d₀ ∈ (top n).declarations, d₀.name = name ∧ d₀.scope = some r := by
  have hapart := hspares d hd hname
  have hout {t : Cursor} (hx : d.identifier ∈ (e.slot t).walk) : False :=
    hapart d.identifier.node (Node.self_mem_walk _)
      (List.mem_map_of_mem (node_mem_walk hx))
  obtain ⟨v', hv', ha⟩ := exists_mem_declarations.1 ⟨d, hd, rfl, hs⟩
  rw [← place_top] at hv'
  rcases (mem_walk_place hfit).1 hv' with ⟨v, hv, rfl⟩ | ⟨t, -, -, hin⟩
  · have hvfit := hfit.of_mem_walk (node_mem_walk hv)
    rcases cases_of_attributes ha hvfit with ⟨y, r, hy, rfl, hattr⟩ | ⟨t, -, -, hx⟩
    · have hyfit : e.Fits y.node := hvfit.of_mem_walk (node_mem_walk hattr.mem_walk)
      have hcode : y.code = name := by
        rw [hy] at hapart
        rw [← hname, name_of_mem_declarations hd, hy]
        show y.node.code = (e.tree y.node).code
        rw [tree_eq_of_apart hyfit hapart]
      obtain ⟨d₀, hd₀, rfl, hr⟩ := exists_mem_declarations.2 ⟨v, hv, hattr⟩
      exact ⟨r, rfl, d₀, hd₀, (name_of_mem_declarations hd₀).trans hcode, hr⟩
    · exact absurd hx hout
  · exact absurd (mem_walk_trans hin ha.mem_walk) hout

/-- A word stays as it is. -/
theorem tree_of_word (h : e.Fits x.node) (hk : x.isAny wordSymbols = true) :
    e.tree x.node = x.node := by
  obtain ⟨k, hmem, hk⟩ := Node.isAny_iff.1 hk
  have hatom : ∀ k ∈ wordSymbols, k ∈ Node.atomSymbols ∧ k ∉ listSymbols := by decide
  refine tree_of_leaf (h.shaped.formed.plain ?_) (h.id_ne hk (hatom k hmem).2)
  rw [Node.isAtom, Node.isAny_iff.2 ⟨k, (hatom k hmem).1, hk⟩, Bool.or_true]

theorem code_place (h : e.Fits x.node) (hk : x.isAny wordSymbols = true) :
    (e.place x).code = x.code := by
  show (e.tree x.node).code = x.node.code
  rw [tree_of_word h hk]

/-- What declares a name by a word declares it in the new tree. -/
theorem exists_declaration_place (hfit : e.Fits n) {d : Declaration}
    (hd : d ∈ (top n).declarations) (hs : d.scope = some s)
    (hk : d.identifier.isAny wordSymbols = true) :
    ∃ d' ∈ (top (e.tree n)).declarations, d'.name = d.name
      ∧ d'.scope = some (e.place s) := by
  obtain ⟨v, hv, ha⟩ := exists_mem_declarations.1 ⟨d, hd, rfl, hs⟩
  have hvfit := hfit.of_mem_walk (node_mem_walk hv)
  have hplace : e.place v ∈ (top (e.tree n)).walk := by
    rw [← place_top]
    exact (mem_walk_place hfit).2 (Or.inl ⟨v, hv, rfl⟩)
  obtain ⟨d', hd', hident, hs'⟩ := exists_mem_declarations.2
    ⟨_, hplace, attributes_place ha hvfit⟩
  refine ⟨d', hd', ?_, hs'⟩
  rw [name_of_mem_declarations hd', name_of_mem_declarations hd, hident,
    code_place (hvfit.of_mem_walk (node_mem_walk ha.mem_walk)) hk]

theorem place_mem_walk (hfit : e.Fits n) (hc : c ∈ (top n).walk) :
    e.place c ∈ (top (e.tree n)).walk := by
  rw [← place_top]
  exact (mem_walk_place hfit).2 (Or.inl ⟨c, hc, rfl⟩)

/-- A name that a word declares is bound by the scope that bound it. -/
theorem bindingScope?_place (hfit : e.Fits n) (hspares : e.Spares n name)
    (hc : c ∈ (top n).walk) {ds : List Declaration} {d : Declaration}
    (hb : c.binding? name = some (s, ds)) (hd : d ∈ ds)
    (hk : d.identifier.isAny wordSymbols = true) :
    (e.place c).bindingScope? name = some (e.place s) := by
  rw [binding?, declarationsOf_eq hc] at hb
  rw [bindingScope?, binding?, declarationsOf_eq (place_mem_walk hfit hc), scopeChain_place]
  rw [lookUp_place hb]
  · rfl
  · intro r _ hr
    rw [inScope, List.filter_eq_nil_iff] at hr ⊢
    intro d' hd' hsame
    obtain ⟨hd', hname⟩ := List.mem_filter.1 hd'
    cases hs' : d'.scope with
    | none => simp [hs'] at hsame
    | some s' =>
        obtain ⟨q, rfl, d₀, hd₀, hname₀, hq⟩ :=
          exists_declaration_of_place hfit hspares hd' (by simpa using hname) hs'
        refine hr d₀ (List.mem_filter.2 ⟨hd₀, by simpa using hname₀⟩) ?_
        simpa [hs', hq] using hsame
  · obtain rfl := found_of_lookUp hb
    obtain ⟨hd, hsame⟩ := List.mem_filter.1 hd
    obtain ⟨hd, hname⟩ := List.mem_filter.1 hd
    cases hs' : d.scope with
    | none => simp [hs'] at hsame
    | some s' =>
        obtain ⟨d', hd', hname', hs''⟩ := exists_declaration_place hfit hd hs' hk
        refine List.ne_nil_of_mem (a := d') (List.mem_filter.2 ⟨List.mem_filter.2 ⟨hd', ?_⟩, ?_⟩)
        · rw [hname']
          exact hname
        · simpa [hs', hs''] using hsame

theorem declaratorScope?_place :
    (e.place c).declaratorScope? = c.declaratorScope?.map e.place := by
  unfold declaratorScope?
  rw [parent?_place]
  cases c.parent? with
  | none => rfl
  | some p =>
      show (if (e.place p).is .variableDeclaration then _ else _) = _
      rw [is_place, functionScope?_place, enclosingScope?_place]
      simp only
      split <;> rfl

end Insertion

namespace Injects

/-- In a parsed program the statement goes to one place. -/
theorem fits {source : Text} (hn : parse source = .ok n) (hs : s ∈ (top n).walk)
    (h : Injects e n s t name) : e.Fits n := by
  have hid := parse_identified hn
  have ht : t ∈ (top n).walk := mem_walk_trans hs h.below
  have heq {c : Cursor} (hc : c ∈ (top n).walk) (hcid : c.node.id = some e.list) :
      c = t := by
    refine eq_of_same hid hc ht ?_
    rw [same, hcid, h.id, beq_self_eq_true]
  refine ⟨(parse_sound hn).shaped, fun m hm hmid => ?_, fun m hm k hk hkid => ?_⟩
  · rw [← show (top n).walk.map (·.node) = n.walk from map_node_walk (top n)] at hm
    obtain ⟨c, hc, rfl⟩ := List.mem_map.1 hm
    rw [heq hc hmid]
    exact ⟨h.kind, h.room⟩
  · rw [← show (top n).walk.map (·.node) = n.walk from map_node_walk (top n)] at hm
    obtain ⟨c, hc, rfl⟩ := List.mem_map.1 hm
    rw [← map_node_children] at hk
    obtain ⟨d, hd, rfl⟩ := List.mem_map.1 hk
    have hdt := heq (mem_walk_of_mem_children hc hd) hkid
    obtain ⟨i, -, ha⟩ := mem_children.1 hd
    refine h.behind ?_
    rw [← hdt, ha]
    exact List.cons_ne_nil _ _

/-- The scope of the name writes it now, or is dynamic. -/
theorem scope_disturbed (hfit : e.Fits s.node) (h : Injects e n s t name) :
    (e.place s).hasDynamicScope = true ∨ (e.place s).isWritten name = true :=
  h.disturbs.of_scope
    ((Insertion.mem_walk_place hfit).2
      (Or.inr ⟨t, h.below, h.id, self_mem_walk _⟩))

end Injects

-- ============================================================= consequences

namespace Cursor

/-- A name that a disturbed scope binds does not resolve. -/
theorem resolve?_eq_none_of_disturbed (hb : c.bindingScope? name = some s)
    (hs : s.hasDynamicScope = true ∨ s.isWritten name = true) :
    c.resolve? name = none := by
  rw [Option.eq_none_iff_forall_ne_some]
  intro init hr
  obtain ⟨-, -, s', d, -, hb', -, -, -, -, -, hdyn, hwritten⟩ :=
    resolve?_eq_some_iff.1 hr
  rw [bindingScope?, hb'] at hb
  obtain rfl := Option.some.inj hb
  rcases hs with hs | hs
  · rw [hs] at hdyn
    cases hdyn
  · rw [hs] at hwritten
    cases hwritten

/-- A word that does not resolve is no wrapper. -/
theorem classify_of_unresolved {names : List Text}
    (hk : c.isAny [.identifier, .shorthandPropertyIdentifier] = true)
    (h : c.resolve? c.code = none) : c.classify names = .ok .unknown := by
  obtain ⟨k, hmem, hk⟩ := Node.isAny_iff.1 hk
  have hno : ∀ k ∈ [Symbol.identifier, .shorthandPropertyIdentifier],
      k ≠ .parenthesizedExpression ∧ k ≠ .callExpression := by decide
  have hparen : c.is .parenthesizedExpression = false :=
    Node.is_false_of_kind hk (hno k hmem).1
  have hcall : c.is .callExpression = false :=
    Node.is_false_of_kind hk (hno k hmem).2
  have hu : c.unparen = c := unparen_of_not_parens hparen
  have hf : c.isFactoryCall names = .ok false := by
    rw [isFactoryCall, hu]
    simp [hcall]
  have hnone : c.wrapperCall? names = .ok none := by
    rw [wrapperCall?, hu, hf]
    show (if !c.is .identifier then pure none else _) = _
    cases c.is .identifier with
    | false => rfl
    | true =>
        cases hb : c.binding? c.code with
        | none => rfl
        | some b =>
            obtain ⟨scope, ds⟩ := b
            simp only [h]
            cases isSharedDollar c.code (some scope) <;> rfl
  rw [classify, hnone]
  rfl

/-- What a pattern binds it binds by words. -/
theorem isAny_of_mem_boundIdentifiers (h : x ∈ c.boundIdentifiers) :
    x.isAny [.identifier, .shorthandPropertyIdentifierPattern] = true := by
  induction c using Cursor.ind with
  | h c ih =>
      rw [boundIdentifiers_eq] at h
      split at h
      · next hk =>
          rw [List.mem_singleton.1 h]
          exact hk
      · split at h
        · obtain ⟨d, hd, hx⟩ := List.mem_flatMap.1 h
          split at hx
          · exact ih d hd hx
          · cases hx
        · cases h

/-- Without a call of the factory there is nothing to fold, and a failure
of the test for one is a failure of the guard. -/
theorem isFoldable_of_not_isFactoryCall {allowed names : List Text} {copies : Int}
    {answer : Check Bool} (h : c.isFactoryCall names = answer)
    (hno : answer ≠ .ok true) : c.isFoldable copies allowed names = answer := by
  have hcall : c.unparen.isFactoryCall names = answer := by
    rw [isFactoryCall_unparen, h]
  unfold isFoldable
  simp only [hcall]
  cases answer with
  | error f => rfl
  | ok b =>
      cases b with
      | false => rfl
      | true => exact absurd rfl hno

/-- What a name resolves to is the value of a declarator whose whole
target is the name, in the scope that binds the name. -/
theorem declarator_of_resolve? (hn : n.Identified) (hc : c ∈ (top n).walk)
    (hr : c.resolve? name = some init) :
    ∃ s ∈ (top n).walk, ∃ x dec, c.binding? name = some (s, [x])
      ∧ dec ∈ (top n).walk ∧ dec.is .variableDeclarator = true
      ∧ dec.child? .name = some x.identifier ∧ dec.child? .value = some init
      ∧ dec.declaratorScope? = some s ∧ x.identifier.code = name
      ∧ x.identifier.isAny [.identifier, .shorthandPropertyIdentifierPattern]
        = true := by
  obtain ⟨-, -, s, x, target, hb, -, -, hinit, htarget, hsame, -, -⟩ :=
    resolve?_eq_some_iff.1 hr
  have hs : s ∈ (top n).walk := (mem_walk_of_mem_scopeChain hc (mem_of_lookUp hb)).1
  have hx : x ∈ inScope (c.declarationsOf name) s := by
    rw [← found_of_lookUp hb]
    exact List.mem_singleton.2 rfl
  obtain ⟨hx, hscope⟩ := List.mem_filter.1 hx
  obtain ⟨hx, hname⟩ := List.mem_filter.1 hx
  rw [(mem_walk_top.1 hc).2] at hx
  obtain ⟨v, hv, dec, hdec, target', hdecl, hdk, hvalue, htarget', hident, hds⟩ :=
    of_mem_declarations_init hx hinit
  rw [hdecl] at htarget
  obtain rfl := Option.some.inj (htarget'.symm.trans htarget)
  have hdecw := mem_walk_of_mem_children hv hdec
  have htargetw := mem_walk_trans hdecw (mem_walk_of_child? htarget')
  obtain rfl : target' = x.identifier := eq_of_same hn htargetw
    (mem_walk_trans htargetw (mem_walk_of_mem_boundIdentifiers hident)) hsame
  refine ⟨s, hs, x, dec, hb, hdecw, hdk, htarget', hvalue, ?_, ?_,
    isAny_of_mem_boundIdentifiers hident⟩
  · rw [hds] at hscope
    split at hscope
    · next s₀ hs₀ =>
        rw [hs₀, eq_of_same hn (declaratorScope?_mem_walk hdecw hs₀) hs hscope]
    · cases hscope
  · rw [← name_of_mem_declarations hx]
    simpa using hname

/-- The value of a declarator is not folded where the scope of its target
is disturbed. -/
theorem not_isFoldable_of_disturbed {allowed names : List Text} {copies : Int}
    (hn : n.Identified) (hd : d ∈ (top n).walk) (hi : d.Initializes t init)
    (hscope : d.declaratorScope? = some s)
    (hs : s.hasDynamicScope = true ∨ s.isWritten t.code = true) :
    init.isFoldable copies allowed names ≠ .ok true := by
  intro hfold
  have honly : t.IsOnlyValue init := ((isFoldable_iff hn hd hi).1 hfold).2.2.1
  obtain ⟨s', -, x, hb, -, -, hs'⟩ := honly.declaration hn hd hi
  obtain rfl := Option.some.inj (hscope.symm.trans hs')
  obtain ⟨init', hr, -⟩ := honly.resolved
  rw [resolve?_eq_none_of_disturbed (by rw [bindingScope?, hb]; rfl) hs] at hr
  cases hr

/-- The guard answers when the test for a call of the factory does. -/
theorem isFoldable_eq_false_iff {allowed names : List Text}
    (hkept : c.isFoldable 1 allowed names ≠ .ok true) :
    c.isFoldable 1 allowed names = .ok false
      ↔ ∃ b, c.isFactoryCall names = .ok b := by
  constructor
  · intro hfold
    cases hf : c.isFactoryCall names with
    | ok b => exact ⟨b, rfl⟩
    | error f =>
        rw [isFoldable_of_not_isFactoryCall hf (by simp)] at hfold
        cases hfold
  · rintro ⟨b, hf⟩
    cases b with
    | true =>
        obtain ⟨b, hfold⟩ : ∃ b, c.isFoldable 1 allowed names = .ok b :=
          exists_isFoldable hf
        cases b with
        | false => exact hfold
        | true => exact absurd hfold hkept
    | false => exact isFoldable_of_not_isFactoryCall hf (by simp)

end Cursor

/-- A statement that disturbs a name takes away what the name resolves
to, wherever below the scope of the name it is put and whatever it holds
besides: the name does not resolve, its use is no wrapper, and its
initializer is not folded. The guard answers that the initializer is
kept, unless the test for a call of the factory fails. -/
theorem Injects.invalidates {source : Text} (hn : parse source = .ok n)
    (hc : c ∈ (top n).walk)
    (hk : c.isAny [.identifier, .shorthandPropertyIdentifier] = true)
    (hr : c.resolve? c.code = some init) {ds : List Declaration}
    (hb : c.binding? c.code = some (s, ds)) (h : Injects e n s t c.code)
    (allowed names : List Text) :
    (e.place c).resolve? c.code = none
      ∧ (e.place c).classify names = .ok .unknown
      ∧ (∀ copies, (e.place init).isFoldable copies allowed names ≠ .ok true)
      ∧ ((e.place init).isFoldable 1 allowed names = .ok false
        ↔ ∃ b, (e.place init).isFactoryCall names = .ok b) := by
  obtain ⟨s', hs, x, dec, hb', hdec, hdk, htarget, hvalue, hscope, hxcode, hword⟩ :=
    declarator_of_resolve? (parse_identified hn) hc hr
  obtain ⟨rfl, rfl⟩ := Prod.mk.inj (Option.some.inj (hb.symm.trans hb'))
  have hfit := h.fits hn hs
  have hfits {c : Cursor} (hc : c ∈ (top n).walk) : e.Fits c.node :=
    hfit.of_mem_walk (node_mem_walk hc)
  have hdisturbed := h.scope_disturbed (hfits hs)
  have hnone : (e.place c).resolve? c.code = none :=
    resolve?_eq_none_of_disturbed
      (Insertion.bindingScope?_place hfit h.spares hc hb (List.mem_singleton.2 rfl)
        (Node.isAny_mono (by decide) hword)) hdisturbed
  have hdecid := (hfits hdec).id_ne (Node.is_iff.1 hdk) (by decide)
  have hi : (e.place dec).Initializes (e.place x.identifier) (e.place init) :=
    ⟨by rw [Insertion.is_place]; exact hdk,
      by rw [Insertion.child?_place hdecid, htarget]; rfl,
      e.place init, by rw [Insertion.child?_place hdecid, hvalue]; rfl, rfl⟩
  have hxplace : (e.place x.identifier).code = c.code := by
    rw [Insertion.code_place (hfits (mem_walk_trans hdec (mem_walk_of_child? htarget)))
      (Node.isAny_mono (by decide) hword), hxcode]
  have hkept (copies : Int) : (e.place init).isFoldable copies allowed names ≠ .ok true :=
    not_isFoldable_of_disturbed h.fresh (Insertion.place_mem_walk hfit hdec) hi
      (by rw [Insertion.declaratorScope?_place, hscope]; rfl)
      (by rw [hxplace]; exact hdisturbed)
  refine ⟨hnone, ?_, hkept, isFoldable_eq_false_iff (hkept 1)⟩
  refine classify_of_unresolved (by rw [Insertion.isAny_place]; exact hk) ?_
  rw [Insertion.code_place (hfits hc) (Node.isAny_mono (by decide) hk)]
  exact hnone

-- =============================================================== instances

/-- The first statement of a source text, with identities from `next`
on. -/
def firstStatement? (source : Text) (next : Nat) : Option Node :=
  match parse source with
  | .error _ => none
  | .ok m => m.children.head?.map fun st => (st.renumber next).1

/-- The test that a statement that assigns to a name is put in a list,
by identities. -/
def isInjection (e : Insertion) (n : Node) (scope list : Cursor) (name : Text) : Bool :=
  scope.walk.any (·.same list) && list.isAny listSymbols
    && list.node.id == some e.list && e.index ≤ list.node.children.length
    && 0 < e.index
    && (e.tree n).walk.all (·.id.isSome) && decide ((e.tree n).walk.map (·.id)).Nodup
    && (top (e.tree n)).declarations.all (fun d => d.name != name
      || d.identifier.node.walk.all fun m => !(e.statement.walk.map (·.id)).contains m.id)
    && (e.slot list).walk.any fun v =>
      v.assigned?.any fun x => x.is .identifier && x.code == name

theorem injects_of_isInjection (hn : n.Identified) (hs : s ∈ (top n).walk)
    (ht : t ∈ (top n).walk) (h : isInjection e n s t name = true) :
    Injects e n s t name := by
  simp only [isInjection, Bool.and_eq_true, List.any_eq_true, List.all_eq_true,
    beq_iff_eq, decide_eq_true_eq, Bool.or_eq_true, bne_iff_ne, Bool.not_eq_true',
    Option.any_eq_true] at h
  obtain ⟨⟨⟨⟨⟨⟨⟨⟨⟨t', ht', hsame⟩, hk⟩, hid⟩, hroom⟩, hpos⟩, hsome⟩, hnodup⟩, hspares⟩,
    v, hv, x, hx, hxk, hcode⟩ := h
  obtain rfl : t' = t := eq_of_same hn (mem_walk_trans hs ht') ht hsame
  refine ⟨ht', hk, hid, hroom, fun _ => hpos, ⟨hsome, hnodup⟩, fun d hd hname m hm hmem => ?_,
    v, hv, Or.inl ⟨x, ⟨x, hx, .name ?_⟩, hcode, ?_⟩⟩
  · rcases hspares d hd with hne | hapart
    · exact hne hname
    · have := hapart m hm
      rw [List.contains_iff_mem.2 hmem] at this
      cases this
  · exact Node.isAny_iff.2 ⟨_, List.mem_cons_self, Node.is_iff.1 hxk⟩
  · exact Node.is_false_of_kind (Node.is_iff.1 hxk) (by decide)

/-- An assignment in a block, put in front of a use in a function. -/
theorem Injects.invalidates_in_function :
    ∃ n st c init s ds e t, parse (Text.ofString
        "var w = $(a); function f() \x7b w.hide(); \x7d") = .ok n
      ∧ firstStatement? (Text.ofString "\x7b let v = w; w = v; \x7d") 100 = some st
      ∧ e.statement = st ∧ c ∈ (top n).walk
      ∧ c.resolve? c.code = some init ∧ c.binding? c.code = some (s, ds)
      ∧ Injects e n s t c.code
      ∧ (e.place c).resolve? c.code = none
      ∧ (e.place c).classify defaultFactoryNames = .ok .unknown
      ∧ (∀ copies, (e.place init).isFoldable copies defaultTransformableMembers
        defaultFactoryNames ≠ .ok true)
      ∧ ((e.place init).isFoldable 1 defaultTransformableMembers
          defaultFactoryNames = .ok false
        ↔ ∃ b, (e.place init).isFactoryCall defaultFactoryNames = .ok b) := by
  have h : holdsAt (Text.ofString
      "var w = $(a); function f() \x7b w.hide(); \x7d") [1, 3, 1, 0, 0, 0] (fun c =>
      (firstStatement? (Text.ofString "\x7b let v = w; w = v; \x7d") 100).any fun st =>
        c.isAny [.identifier, .shorthandPropertyIdentifier]
          && (c.resolve? c.code).isSome
          && (c.binding? c.code).any fun (s, _) =>
            (c.root.follow? [1, 3]).any fun t => t.node.id.any fun i =>
              isInjection ⟨i, 1, st⟩ c.root.node s t c.code) = true := by
    decide +kernel
  obtain ⟨n, c, hn, hc, h⟩ := exists_of_holdsAt h
  simp only [Bool.and_eq_true, Option.any_eq_true] at h
  obtain ⟨st, hst, ⟨hk, hr⟩, ⟨s, ds⟩, hb, t, ht, i, -, hinj⟩ := h
  obtain ⟨init, hr⟩ := Option.isSome_iff_exists.1 hr
  rw [(mem_walk_top.1 hc).2] at ht hinj
  have hs := (mem_walk_of_mem_scopeChain hc (mem_of_lookUp hb)).1
  have hinj := injects_of_isInjection (parse_identified hn) hs (mem_walk_of_follow? ht) hinj
  exact ⟨n, st, c, init, s, ds, ⟨i, 1, st⟩, t, hn, hst, rfl, hc, hr, hb, hinj,
    hinj.invalidates hn hc hk hr hb _ _⟩

/-- A statement that writes the name and declares the factory with an
escape that names no character: the guard gives no answer about the
initializer, which is a call of the factory without the statement. -/
theorem isFoldable_fails_after_injection :
    ∃ n st c init s ds e t, parse (Text.ofString "var w = $(x); w;") = .ok n
      ∧ firstStatement? (Text.ofString
          "\x7b w = 1; var $ = require(\"\\u\x7bFFFFFFFFF\x7d\"); \x7d") 100 = some st
      ∧ e.statement = st ∧ c ∈ (top n).walk ∧ c.is .identifier = true
      ∧ c.resolve? c.code = some init ∧ c.binding? c.code = some (s, ds)
      ∧ Injects e n s t c.code
      ∧ init.isFactoryCall defaultFactoryNames = .ok true
      ∧ (e.place init).isFoldable 1 defaultTransformableMembers defaultFactoryNames
        ≠ .ok false := by
  have h : holdsAt (Text.ofString "var w = $(x); w;") [1, 0] (fun c =>
      (firstStatement? (Text.ofString
          "\x7b w = 1; var $ = require(\"\\u\x7bFFFFFFFFF\x7d\"); \x7d") 100).any fun st =>
        c.is .identifier
          && (c.resolve? c.code).any (fun init =>
            (init.isFactoryCall defaultFactoryNames).toOption == some true
              && (c.root.node.id.any fun i => ((Insertion.place ⟨i, 1, st⟩ init).isFoldable 1
                defaultTransformableMembers defaultFactoryNames).toOption == none))
          && (c.binding? c.code).any fun (s, _) =>
            c.root.node.id.any fun i =>
              isInjection ⟨i, 1, st⟩ c.root.node s c.root c.code) = true := by
    decide +kernel
  obtain ⟨n, c, hn, hc, h⟩ := exists_of_holdsAt h
  rw [(mem_walk_top.1 hc).2] at h
  simp only [Bool.and_eq_true, Option.any_eq_true, beq_iff_eq] at h
  obtain ⟨st, hst, ⟨hk, init, hr, hf, i, hi, hfold⟩, ⟨s, ds⟩, hb, i', hi', hinj⟩ := h
  obtain rfl := Option.some.inj (hi.symm.trans hi')
  have hs := (mem_walk_of_mem_scopeChain hc (mem_of_lookUp hb)).1
  have hinj := injects_of_isInjection (parse_identified hn) hs (self_mem_walk _) hinj
  refine ⟨n, st, c, init, s, ds, ⟨i, 1, st⟩, top n, hn, hst, rfl, hc, hk, hr, hb, hinj,
    eq_ok_of_toOption hf, fun hno => ?_⟩
  rw [hno] at hfold
  cases hfold

end Codemod
