/-
Rewrites of calls of the factory, and of the functions it carries.
-/
import Codemod.Proofs.Effect.Callback

namespace Codemod

variable {context : RuleContext} {c m o : Cursor} {name : Text} {new : Node}

-- ============================================= functions of the factory

/-- A rule for the functions of the factory keeps effects where its test
keeps those of the arguments. -/
theorem Sweep.keeps_ofStatics {names : List String}
    {f : RuleContext → Cursor → List Cursor → Check (Option Node)}
    (h : ∀ context c new, c.Stands → f context c c.arguments = .ok (some new) →
      new.Shaped
        ∧ (∀ p, (new.listed p).Subperm (c.arguments.flatMap (·.node.listed p)))
        ∧ new.effects = c.arguments.flatMap (·.node.effects)) :
    (Sweep.ofStatics names f).Keeps .callExpression := by
  refine Sweep.keeps_ofMethods fun context c m name new hc hk hm hf => ?_
  split at hf
  · simp [pure_eq_ok] at hf
  · next o ho =>
      obtain ⟨b, hb, hf⟩ := bind_eq_ok.1 hf
      cases b with
      | false => simp [pure_eq_ok] at hf
      | true =>
          simp only [if_true] at hf
          obtain ⟨hshape, hlisted, heff⟩ := h context c new hc hf
          have hos := (hc.of_mem_walk (Cursor.mem_walk_trans
            (Cursor.calledMember_mem_walk hm) (Cursor.mem_walk_of_child? ho))).node
          refine kept_of_object hc.node hk hm ho hshape (fun p => ?_) ?_
            (List.forall_mem_nil _)
          · exact (hlisted p).trans (List.sublist_append_right _ _).subperm
          · rw [Cursor.effects_of_isFactoryIdentifier hos hb, heff]

namespace Rules

theorem keeps_each : each.Keeps := by
  refine Rule.keeps_ofSweeps (by decide) (Sweep.keeps_ofStatics ?_)
  intro context c new hc h
  split at h
  · next array callback hargs =>
      obtain ⟨-, h⟩ := unless_eq_ok.1 h
      obtain ⟨-, h⟩ := unless_eq_ok.1 h
      have harray : array ∈ c.arguments := by rw [hargs]; simp
      have hcallback : callback ∈ c.arguments := by rw [hargs]; simp
      have hstands := hc.of_mem_walk (Cursor.mem_walk_of_mem_arguments hcallback)
      -- either way the callback is renewed
      obtain ⟨renewed, hr, rfl⟩ : ∃ renewed, Node.Renews callback.node renewed
          ∧ Build.methodCall array.node "forEach" [renewed] = new := by
        split at h
        · exact ⟨_, Node.Renews.refl hstands.node, some_eq_of_ok h⟩
        · next index value hp =>
            refine ⟨_, ?_, some_eq_of_ok h⟩
            exact hstands.renews_exchanging hp (Node.Renews.refl hstands.node)
              (Node.Spares.refl _) (List.forall_mem_nil _)
        · simp [pure_eq_ok] at h
      refine ⟨?_, fun p => ?_, ?_⟩
      · exact Build.shaped_methodCall
          (Cursor.shaped_of_mem_arguments hc.node harray) (by simpa using hr.shaped)
      · rw [hargs]
        simpa [List.subperm_append_left] using hr.listed p
      · rw [hargs]
        simpa [Node.effects] using hr.effects
  · simp [pure_eq_ok] at h

/-- A method of the first argument, called with the second. -/
theorem static_methodCall {a b : Cursor} {method : Text} (hc : c.Stands)
    (hargs : c.arguments = [a, b]) :
    (Build.methodCall a.node method [b.node]).Shaped
      ∧ (∀ p, ((Build.methodCall a.node method [b.node]).listed p).Subperm
        (c.arguments.flatMap (·.node.listed p)))
      ∧ (Build.methodCall a.node method [b.node]).effects
        = c.arguments.flatMap (·.node.effects) := by
  have hshape := hc.arguments
  rw [hargs] at hshape ⊢
  refine ⟨?_, fun p => ?_, ?_⟩
  · exact Build.shaped_methodCall (hshape _ (by simp))
      (by simpa using hshape _ (List.mem_cons_of_mem _ (List.mem_singleton.2 rfl)))
  · rw [Build.listed_methodCall]
    simp only [List.flatMap_cons, List.flatMap_nil, List.append_nil]
    exact List.Subperm.refl _
  · simp [Node.effects]

theorem keeps_grep : grep.Keeps := by
  refine Rule.keeps_ofSweeps (by decide) (Sweep.keeps_ofStatics ?_)
  intro context c new hc h
  split at h
  · next array callback hargs =>
      obtain ⟨-, h⟩ := unless_eq_ok.1 h
      obtain ⟨-, h⟩ := unless_eq_ok.1 h
      obtain rfl := some_eq_of_ok h
      exact static_methodCall hc hargs
  · simp [pure_eq_ok] at h

theorem keeps_map : map.Keeps := by
  refine Rule.keeps_ofSweeps (by decide) (Sweep.keeps_ofStatics ?_)
  intro context c new hc h
  split at h
  · next array callback hargs =>
      obtain ⟨-, h⟩ := unless_eq_ok.1 h
      obtain ⟨-, h⟩ := unless_eq_ok.1 h
      obtain ⟨-, h⟩ := unless_eq_ok.1 h
      obtain rfl := some_eq_of_ok h
      exact static_methodCall hc hargs
  · simp [pure_eq_ok] at h

theorem keeps_trim : trim.Keeps := by
  refine Rule.keeps_ofSweeps (by decide) (Sweep.keeps_ofStatics ?_)
  intro context c new hc h
  split at h
  · next text hargs =>
      obtain ⟨-, h⟩ := unless_eq_ok.1 h
      obtain rfl := some_eq_of_ok h
      have hshape := hc.arguments
      rw [hargs] at hshape ⊢
      refine ⟨?_, fun p => ?_, ?_⟩
      · exact Build.shaped_methodCall (hshape _ (by simp)) (List.forall_mem_nil _)
      · rw [Build.listed_methodCall]
        simp only [List.flatMap_cons, List.flatMap_nil, List.append_nil]
        exact List.Subperm.refl _
      · simp [Node.effects]
  · simp [pure_eq_ok] at h

-- ================================================== calls of the factory

/-- `document.querySelectorAll(selector)` is made of the selector. -/
theorem shaped_queryAll {selector : Node} (h : selector.Shaped) :
    (queryAll selector).Shaped :=
  Build.shaped_methodCall (Build.shaped_identifier _) (by simpa using h)

theorem listed_queryAll (selector : Node) (p : Kind → Bool → Bool) :
    (queryAll selector).listed p = selector.listed p := by
  simp [queryAll]

/-- Waiting for the document is made of the handler. -/
theorem shaped_whenLoaded {handler : Node} (h : handler.Shaped) :
    (whenLoaded handler).Shaped := by
  refine Build.shaped_methodCall (Build.shaped_identifier _) ?_
  simpa using ⟨Build.shaped_string _, h⟩

theorem listed_whenLoaded (handler : Node) (p : Kind → Bool → Bool) :
    (whenLoaded handler).listed p = handler.listed p := by
  simp [whenLoaded]

end Rules

/-- A rule for calls of the factory keeps effects where its test does. -/
theorem Sweep.keeps_ofFactoryCalls
    {f : RuleContext → Cursor → Cursor → Check (Option Node)}
    (h : ∀ context c a new, c.Stands → c.is .callExpression = true →
      c.isFactoryCall context.factoryNames = .ok true → a ∈ c.arguments →
      f context c a = .ok (some new) → Kept context.factoryNames c new) :
    (Sweep.ofFactoryCalls f).Keeps .callExpression := by
  refine ⟨fun c hc => hc, fun context c new hc hk hr => ?_⟩
  simp only [Sweep.ofFactoryCalls] at hr
  obtain ⟨b, hb, hr⟩ := bind_eq_ok.1 hr
  cases b with
  | false => simp [pure_eq_ok] at hr
  | true =>
      simp only [Bool.not_true, Bool.false_eq_true, if_false] at hr
      split at hr
      · next a ha => exact h context c a new hc hk hb (List.mem_of_head? ha) hr
      · simp [pure_eq_ok] at hr

namespace Rules

theorem keeps_byId : byId.Keeps := by
  refine Rule.keeps_ofSweeps (by decide) (Sweep.keeps_ofFactoryCalls ?_)
  intro context c a new hc hk hf ha h
  obtain ⟨id?, hid, h⟩ := bind_eq_ok.1 h
  split at h
  · simp [pure_eq_ok] at h
  · next id =>
      obtain ⟨-, h⟩ := unless_eq_ok.1 h
      obtain ⟨b, -, h⟩ := bind_eq_ok.1 h
      split at h
      · obtain rfl := some_eq_of_ok h
        obtain ⟨u, hu, -⟩ := idSelector?_eq_some hid
        refine kept_of_factoryCall hc.node hk hf ha (shaped_elementById id)
          (fun p => ?_) ?_
        · rw [listed_elementById]
          exact List.nil_subperm
        · rw [hc.effects_argument ha hu, Node.effects, listed_elementById]
      · simp [pure_eq_ok] at h

theorem keeps_byClass : byClass.Keeps := by
  refine Rule.keeps_ofSweeps (by decide) (Sweep.keeps_ofFactoryCalls ?_)
  intro context c a new hc hk hf ha h
  obtain ⟨v, -, h⟩ := bind_eq_ok.1 h
  split at h
  · simp [pure_eq_ok] at h
  · obtain ⟨-, h⟩ := unless_eq_ok.1 h
    obtain ⟨b, -, h⟩ := bind_eq_ok.1 h
    split at h
    · obtain rfl := some_eq_of_ok h
      refine kept_of_factoryCall hc.node hk hf ha
        (shaped_queryAll (Cursor.shaped_of_mem_arguments hc.node ha))
        (fun p => ?_) (listed_queryAll a.node isEffectKind)
      rw [listed_queryAll]
    · simp [pure_eq_ok] at h

theorem keeps_unwrapElement : unwrapElement.Keeps := by
  refine Rule.keeps_ofSweeps (by decide) (Sweep.keeps_ofFactoryCalls ?_)
  intro context c a new hc hk hf ha h
  obtain ⟨-, h⟩ := unless_eq_ok.1 h
  obtain ⟨-, h⟩ := unless_eq_ok.1 h
  obtain ⟨b, -, h⟩ := bind_eq_ok.1 h
  obtain ⟨-, h⟩ := unless_eq_ok.1 h
  -- the call is its own wrapper, so its argument takes its place
  obtain ⟨hk', -, d, hd⟩ := Cursor.isFactoryCall_spec hf
  have hu := Cursor.unparen_of_call hk
  unfold Cursor.wrapperTarget? at h
  obtain ⟨r, hr, h⟩ := bind_eq_ok.1 h
  cases r with
  | none => simp [pure_eq_ok] at h
  | some pc =>
      obtain ⟨p, call⟩ := pc
      rcases wrapperCall?_spec hr with ⟨rfl, rfl, -⟩ | ⟨-, hident, -⟩
      · rw [hu] at hd h
        simp only [hd, List.head?_cons, beq_self_eq_true, if_true] at h
        obtain rfl := some_eq_of_ok h
        rw [hd, List.mem_singleton] at ha
        subst ha
        exact kept_of_factoryCall hc.node hk hf (by rw [hd]; simp)
          (Cursor.shaped_of_mem_arguments hc.node (by rw [hd]; simp))
          (fun p => List.Subperm.refl _) rfl
      · rw [hu] at hident
        have h1 : c.node.kind = .symbol .callExpression := by
          simpa [Cursor.is, Node.is] using hk
        have h2 : c.node.kind = .symbol .identifier := by
          simpa [Cursor.is, Node.is] using hident
        rw [h1] at h2
        cases h2

theorem keeps_readyShorthand : readyShorthand.Keeps .callExpression := by
  refine ⟨fun c hc => hc, fun context c new hc hk hr => ?_⟩
  simp only [readyShorthand] at hr
  obtain ⟨b, hf, hr⟩ := bind_eq_ok.1 hr
  cases b with
  | false => simp [pure_eq_ok] at hr
  | true =>
      simp only [Bool.not_true, Bool.false_eq_true, if_false] at hr
      split at hr
      · simp [pure_eq_ok] at hr
      · next handler hh =>
          obtain ⟨-, hr⟩ := unless_eq_ok.1 hr
          obtain ⟨-, hr⟩ := unless_eq_ok.1 hr
          obtain ⟨b, -, hr⟩ := bind_eq_ok.1 hr
          split at hr
          · obtain rfl := some_eq_of_ok hr
            have ha := List.mem_of_head? hh
            refine kept_of_factoryCall hc.node hk hf ha
              (shaped_whenLoaded (Cursor.shaped_of_mem_arguments hc.node ha))
              (fun p => ?_) (listed_whenLoaded handler.node isEffectKind)
            rw [listed_whenLoaded]
          · simp [pure_eq_ok] at hr

-- ===================================================== wrapped once only

/-- Something fresh, or made of the argument, stands for a call of the
factory on a literal or a name. -/
theorem standsFor_factoryCall {names : List Text} {receiver a : Cursor}
    {target : Node} (h : receiver.Stands) (hu : receiver.unparen = receiver)
    (hf : receiver.isFactoryCall names = .ok true)
    (ha : receiver.arguments.head? = some a) (hae : a.node.effects = [])
    (ht : target.Shaped)
    (hlisted : ∀ p, (target.listed p).Sublist (a.node.listed p)) :
    StandsFor names receiver target := by
  obtain ⟨-, -, b, hb⟩ := Cursor.isFactoryCall_spec hf
  rw [hu] at hb
  rw [hb, List.head?_cons] at ha
  obtain rfl := Option.some.inj ha
  have hb' := standsFor_argument h.node hu hf hb
  obtain ⟨gone, hgone, hspent⟩ := hb'.effects
  refine ⟨ht, fun p => (hlisted p).trans (hb'.listed p), gone, ?_, hspent⟩
  have hnil : target.effects = [] := by
    have := hlisted isEffectKind
    rw [show b.node.listed isEffectKind = [] from hae, List.sublist_nil] at this
    exact this
  rw [hgone, hae, hnil]

/-- A name in parentheses has no effects. -/
theorem effects_of_isIdentifier {a : Cursor} {t : Text} (ha : a.node.Shaped)
    (h : a.unparen.node.isIdentifier t = true) : a.node.effects = [] := by
  rw [Node.isIdentifier, Bool.and_eq_true] at h
  rw [← Cursor.effects_unparen ha]
  exact Cursor.effects_identifier
    (Cursor.shaped_of_mem_walk ha (Cursor.unparen_mem_walk a)) h.1

theorem keeps_readyCalls : readyCalls.Keeps .callExpression := by
  refine Sweep.keeps_ofMethods ?_
  intro context c m name new hc hk hm h
  split at h
  · next handler receiver hargs hreceiver =>
      obtain ⟨o, ho, rfl⟩ := Cursor.inner?_eq_some.1 hreceiver
      have hostands := hc.of_mem_walk (Cursor.mem_walk_trans
        (Cursor.calledMember_mem_walk hm) (Cursor.mem_walk_trans
          (Cursor.mem_walk_of_child? ho) (Cursor.unparen_mem_walk o)))
      obtain ⟨-, h⟩ := unless_eq_ok.1 h
      split at h
      · simp [pure_eq_ok] at h
      · obtain ⟨-, h⟩ := unless_eq_ok.1 h
        obtain ⟨b, hf, h⟩ := bind_eq_ok.1 h
        cases b with
        | false => simp [pure_eq_ok] at h
        | true =>
            simp only [Bool.not_true, Bool.false_eq_true, if_false] at h
            split at h
            · simp [pure_eq_ok] at h
            · next wrapped hw =>
                obtain ⟨hdoc, h⟩ := unless_eq_ok.1 h
                obtain ⟨-, h⟩ := unless_eq_ok.1 h
                obtain rfl := some_eq_of_ok h
                have hws := Cursor.shaped_of_mem_arguments hostands.node
                  (List.mem_of_head? hw)
                have ht : StandsFor context.factoryNames o.unparen
                    (Build.identifier "document") := by
                  refine standsFor_factoryCall hostands (Cursor.unparen_unparen o)
                    hf hw (effects_of_isIdentifier hws (by simpa using hdoc))
                    (Build.shaped_identifier _) fun p => ?_
                  rw [Build.listed_identifier]
                  exact List.nil_sublist _
                have hhs := hc.arguments
                rw [hargs] at hhs
                refine kept_of_receiver hc.node hk hm ho ht
                  (shaped_whenLoaded (hhs _ (by simp))) (fun p => ?_) ?_
                · rw [hargs, listed_whenLoaded]
                  simp only [Build.listed_identifier, List.flatMap_cons,
                    List.flatMap_nil, List.append_nil, List.nil_append]
                  exact List.Subperm.refl _
                · rw [hargs, Node.effects, listed_whenLoaded]
                  simp [Node.effects]
  · simp [pure_eq_ok] at h

theorem keeps_ready : ready.Keeps := by
  refine ⟨.callExpression, by decide, _, rfl, fun s hmem => ?_⟩
  simp only [List.mem_cons, List.not_mem_nil, or_false] at hmem
  rcases hmem with rfl | rfl
  · exact keeps_readyCalls
  · exact keeps_readyShorthand

/-- A callback that may be handed element and index has plain
parameters. -/
theorem simpleParameters?_of_visitorParameters? {f : Cursor}
    {params : List Cursor} (h : f.visitorParameters? = some params) :
    f.simpleParameters? = some params := by
  cases hps : f.simpleParameters? with
  | none => simp [Cursor.visitorParameters?, hps] at h
  | some ps =>
      simp only [Cursor.visitorParameters?, hps] at h
      refine congrArg some ?_
      grind

theorem keeps_eachElement : eachElement.Keeps := by
  refine Rule.keeps_ofSweeps (by decide) (Sweep.keeps_ofMethods ?_)
  intro context c m name new hc hk hm h
  split at h
  · next callback receiver hargs hreceiver =>
      obtain ⟨o, ho, rfl⟩ := Cursor.inner?_eq_some.1 hreceiver
      have hostands := hc.of_mem_walk (Cursor.mem_walk_trans
        (Cursor.calledMember_mem_walk hm) (Cursor.mem_walk_trans
          (Cursor.mem_walk_of_child? ho) (Cursor.unparen_mem_walk o)))
      obtain ⟨-, h⟩ := unless_eq_ok.1 h
      obtain ⟨b, hf, h⟩ := bind_eq_ok.1 h
      cases b with
      | false => simp [pure_eq_ok] at h
      | true =>
          simp only [Bool.not_true, Bool.false_eq_true, if_false] at h
          split at h
          · simp [pure_eq_ok] at h
          · next selector hsel =>
              obtain ⟨v, hv, h⟩ := bind_eq_ok.1 h
              split at h
              · simp [pure_eq_ok] at h
              · next t htext =>
                  rw [filter_eq_some htext] at hv
                  obtain ⟨-, h⟩ := unless_eq_ok.1 h
                  obtain ⟨b, -, h⟩ := bind_eq_ok.1 h
                  obtain ⟨-, h⟩ := unless_eq_ok.1 h
                  split at h
                  · simp [pure_eq_ok] at h
                  · next params hparams =>
                      obtain rfl := some_eq_of_ok h
                      have hcallback : callback ∈ c.arguments := by
                        rw [hargs]; simp
                      have hr := (hc.of_mem_walk
                        (Cursor.mem_walk_of_mem_arguments hcallback)).renews_visitor
                        (simpleParameters?_of_visitorParameters? hparams)
                      have hss := Cursor.shaped_of_mem_arguments hostands.node
                        (List.mem_of_head? hsel)
                      have ht : StandsFor context.factoryNames o.unparen
                          (queryAll selector.node) := by
                        refine standsFor_factoryCall hostands
                          (Cursor.unparen_unparen o) hf hsel
                          (Cursor.effects_of_stringValue hss hv)
                          (shaped_queryAll hss) fun p => ?_
                        rw [listed_queryAll]
                      refine kept_of_receiver hc.node hk hm ho ht
                        (Build.shaped_methodCall ht.shaped
                          (by simpa using hr.shaped)) (fun p => ?_) ?_
                      · rw [hargs]
                        simpa [List.subperm_append_left] using hr.listed p
                      · rw [hargs]
                        simpa [Node.effects] using hr.effects
  · simp [pure_eq_ok] at h

end Rules

end Codemod
