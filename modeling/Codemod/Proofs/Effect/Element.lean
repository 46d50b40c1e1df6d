/-
Rewrites of method calls on a wrapper.

The wrapper gives way to its element, and the arguments are kept, save
for literals that are spelled anew (`kept_of_target`).
-/
import Codemod.Proofs.Effect.Rewrite
import Codemod.Rule.Registry

namespace Codemod

/-- The cursor stands at a place of a shaped tree without identities used
twice. -/
structure Cursor.Stands (c : Cursor) : Prop where
  placed : c.Placed
  shaped : c.root.node.Shaped
  nodup : c.root.node.ids.Nodup

theorem Cursor.Stands.node {c : Cursor} (h : c.Stands) : c.node.Shaped :=
  Cursor.shaped_of_mem_walk h.shaped h.placed.mem_walk_root

theorem Cursor.Stands.of_mem_walk {c d : Cursor} (h : c.Stands)
    (hd : d ∈ c.walk) : d.Stands := by
  refine ⟨h.placed.of_mem_walk hd, ?_, ?_⟩
  · rw [Cursor.root_of_mem_walk hd]
    exact h.shaped
  · rw [Cursor.root_of_mem_walk hd]
    exact h.nodup

theorem Cursor.Stands.nodup_node {c : Cursor} (h : c.Stands) :
    c.node.ids.Nodup :=
  h.nodup.sublist (Node.ids_sublist_of_mem_walk
    (Cursor.node_mem_walk h.placed.mem_walk_root))

/-- The kinds of expression that rules replace. -/
def siteSymbols : List Symbol := [.callExpression, .binaryExpression]

/-- The sweep looks at expressions of one kind, and what it puts in their
place keeps their effects. -/
structure Sweep.Keeps (s : Sweep) (k : Symbol) : Prop where
  kind : ∀ c, s.isCandidate c = true → c.is k = true
  kept : ∀ (context : RuleContext) (c : Cursor) (new : Node), c.Stands →
    c.is k = true → s.replacement context c = .ok (some new) →
    Kept context.factoryNames c new

/-- The rule looks at expressions of one kind, and every sweep of it keeps
the effects of what it replaces. -/
def Rule.Keeps (rule : Rule) : Prop :=
  ∃ k ∈ siteSymbols, ∃ sweeps, rule.action = .sweeps sweeps
    ∧ ∀ s ∈ sweeps, s.Keeps k

theorem Rule.keeps_ofSweeps {name group description : String} {s : Sweep}
    {k : Symbol} (hk : k ∈ siteSymbols) (h : s.Keeps k) :
    (Rule.ofSweeps name group description [s]).Keeps := by
  refine ⟨k, hk, [s], rfl, fun t ht => ?_⟩
  rw [List.mem_singleton.1 ht]
  exact h

variable {context : RuleContext} {c m : Cursor} {name : Text} {new target : Node}

/-- A rule for method calls keeps effects where its test does. -/
theorem Sweep.keeps_ofMethods {names : List String}
    {f : RuleContext → Cursor → Cursor → Text → List Cursor → Check (Option Node)}
    (h : ∀ context c m name new, c.Stands → c.is .callExpression = true →
      c.calledMember? = some (m, name) →
      f context c m name c.arguments = .ok (some new) →
      Kept context.factoryNames c new) :
    (Sweep.ofMethods names f).Keeps .callExpression := by
  refine ⟨fun c hc => ?_, fun context c new hc hk hr => ?_⟩
  · simp only [Sweep.ofMethods, Cursor.isMethodCall, Bool.and_eq_true] at hc
    exact hc.1
  · simp only [Sweep.ofMethods] at hr
    split at hr
    · next m name hm =>
        split at hr
        · cases hr
        · exact h context c m name new hc hk hm hr
    · cases hr

theorem Cursor.calledMember_mem_walk (hm : c.calledMember? = some (m, name)) :
    m ∈ c.walk := by
  obtain ⟨f, hf, rfl⟩ := Cursor.inner?_eq_some.1 (Cursor.calledMember?_eq_some hm).1
  exact Cursor.mem_walk_trans (Cursor.mem_walk_of_child? hf)
    (Cursor.unparen_mem_walk f)

/-- The element takes the wrapper's place; of the arguments, those left
out have no effects. -/
theorem kept_of_target (kept : List Cursor) (hc : c.Stands)
    (hk : c.is .callExpression = true) (hm : c.calledMember? = some (m, name))
    (ht : receiverTarget? context m = .ok (some target))
    (hshape : target.Shaped → new.Shaped)
    (hlisted : ∀ p, new.listed p
      = target.listed p ++ kept.flatMap (·.node.listed p))
    (hkept : kept.Sublist c.arguments)
    (heff : kept.flatMap (·.node.effects)
      = c.arguments.flatMap (·.node.effects)) :
    Kept context.factoryNames c new := by
  have hms := hc.of_mem_walk (Cursor.calledMember_mem_walk hm)
  obtain ⟨o, ho, hstands⟩ := receiverTarget?_spec hms.placed hms.shaped ht
  refine kept_of_receiver hc.node hk hm ho hstands (hshape hstands.shaped) ?_ ?_
  · intro p
    rw [hlisted]
    exact ((List.Sublist.refl _).append (hkept.flatMap _)).subperm
  · rw [← heff]
    exact hlisted isEffectKind

/-- A rule that goes on has not given up before. -/
theorem unless_eq_ok {b : Bool} {x : Check (Option Node)} :
    (if b = true then pure none else x) = .ok (some new)
      ↔ b = false ∧ x = .ok (some new) := by
  cases b <;> simp [pure_eq_ok]

theorem some_eq_of_ok {a b : Node} (h : (pure (some a) : Check (Option Node)) = .ok (some b)) :
    a = b :=
  Option.some.inj (pure_eq_ok.1 h)

/-- A rule that rewrites the receiver has found its element. -/
theorem target_eq_ok {build : Node → Node}
    (h : (receiverTarget? context m >>= fun
      | none => pure none
      | some target => pure (some (build target))) = .ok (some new)) :
    ∃ target, receiverTarget? context m = .ok (some target)
      ∧ build target = new := by
  obtain ⟨r, hr, h⟩ := bind_eq_ok.1 h
  cases r with
  | none => simp [pure_eq_ok] at h
  | some target =>
      refine ⟨target, hr, ?_⟩
      simpa [pure_eq_ok] using h

theorem Cursor.Stands.arguments (h : c.Stands) :
    ∀ a ∈ c.arguments.map (·.node), a.Shaped := by
  intro a ha
  obtain ⟨d, hd, rfl⟩ := List.mem_map.1 ha
  exact Cursor.shaped_of_mem_arguments h.node hd

/-- Arguments with a value that is known have no effects. -/
theorem Cursor.Stands.effects_argument {a : Cursor} {t : Text} (h : c.Stands)
    (ha : a ∈ c.arguments) (hv : a.node.stringValue = .ok (some t)) :
    a.node.effects = [] :=
  Cursor.effects_of_stringValue (Cursor.shaped_of_mem_arguments h.node ha) hv

/-- A call of a method of the element, with the arguments as they
are. -/
theorem kept_methodCall {obj : Node} {method : Text} {args : List Cursor}
    (hargs : c.arguments = args) (hc : c.Stands)
    (hk : c.is .callExpression = true) (hm : c.calledMember? = some (m, name))
    (ht : receiverTarget? context m = .ok (some target))
    (hshape : target.Shaped → obj.Shaped)
    (hlisted : ∀ p, obj.listed p = target.listed p) :
    Kept context.factoryNames c
      (Build.methodCall obj method (args.map (·.node))) := by
  subst hargs
  refine kept_of_target _ hc hk hm ht (fun hs => ?_) (fun p => ?_)
    (List.Sublist.refl _) rfl
  · exact Build.shaped_methodCall (hshape hs) hc.arguments
  · rw [Build.listed_methodCall, hlisted, List.flatMap_map]

/-- A test of a literal that succeeds has found its value. -/
theorem filter_eq_some {x : Option Text} {q : Text → Bool} {t : Text}
    (h : x.filter q = some t) : x = some t := by
  cases x with
  | none => cases h
  | some u => exact (Option.filter_eq_some_iff.1 h).1

/-- Something fresh stands for a wrapper around a name. -/
theorem standsFor_wrapped {names : List Text} {receiver wrapped : Cursor}
    (h : receiver.node.Shaped) (hu : receiver.unparen = receiver)
    (hw : receiver.wrappedArgument? names = .ok (some wrapped))
    (hident : wrapped.unparen.is .identifier = true) (ht : target.Shaped)
    (hlisted : ∀ p, target.listed p = []) : StandsFor names receiver target := by
  unfold Cursor.wrappedArgument? at hw
  obtain ⟨r, hr, hw⟩ := bind_eq_ok.1 hw
  cases r with
  | none => simp [pure_eq_ok] at hw
  | some pc =>
      obtain ⟨p, call⟩ := pc
      simp only [pure_eq_ok] at hw
      rcases wrapperCall?_spec hr with ⟨-, rfl, hf⟩ | ⟨-, hk, -⟩
      · rw [hu] at hf hw
        obtain ⟨-, -, b, hb⟩ := Cursor.isFactoryCall_spec hf
        rw [hu] at hb
        rw [hb, List.head?_cons] at hw
        obtain rfl := Option.some.inj hw
        have hbs := Cursor.shaped_of_mem_arguments h
          (by rw [hb]; exact List.mem_singleton.2 rfl)
        refine standsFor_fresh h hu hf hb ?_ ht hlisted
        rw [← Cursor.effects_unparen hbs]
        exact Cursor.effects_identifier
          (Cursor.shaped_of_mem_walk hbs (Cursor.unparen_mem_walk b)) hident
      · rw [hu] at hk
        exact standsFor_identifier h hk ht hlisted

namespace Rules

-- ============================================== attributes and properties

theorem keeps_attr : attr.Keeps := by
  refine Rule.keeps_ofSweeps (by decide) (Sweep.keeps_ofMethods ?_)
  intro context c m name new hc hk hm h
  split at h
  · next n hargs =>
      obtain ⟨v, -, h⟩ := bind_eq_ok.1 h
      obtain ⟨-, h⟩ := unless_eq_ok.1 h
      obtain ⟨target, ht, rfl⟩ := target_eq_ok h
      exact kept_methodCall hargs hc hk hm ht id fun p => rfl
  · next n v hargs =>
      obtain ⟨v, -, h⟩ := bind_eq_ok.1 h
      obtain ⟨-, h⟩ := unless_eq_ok.1 h
      obtain ⟨-, h⟩ := unless_eq_ok.1 h
      obtain ⟨target, ht, rfl⟩ := target_eq_ok h
      exact kept_methodCall hargs hc hk hm ht id fun p => rfl
  · simp [pure_eq_ok] at h

theorem keeps_removeAttr : removeAttr.Keeps := by
  refine Rule.keeps_ofSweeps (by decide) (Sweep.keeps_ofMethods ?_)
  intro context c m name new hc hk hm h
  split at h
  · next n hargs =>
      obtain ⟨v, -, h⟩ := bind_eq_ok.1 h
      obtain ⟨-, h⟩ := unless_eq_ok.1 h
      obtain ⟨target, ht, rfl⟩ := target_eq_ok h
      exact kept_methodCall hargs hc hk hm ht id fun p => rfl
  · simp [pure_eq_ok] at h

/-- An assignment to a property of the element, or the property
itself. -/
theorem kept_property (property : Text) (kept : List Cursor) (hc : c.Stands)
    (hk : c.is .callExpression = true) (hm : c.calledMember? = some (m, name))
    (ht : receiverTarget? context m = .ok (some target))
    (hkept : kept.Sublist c.arguments)
    (heff : kept.flatMap (·.node.effects)
      = c.arguments.flatMap (·.node.effects))
    (hnew : (kept = [] ∧ new = Build.member target property)
      ∨ ∃ v, kept = [v]
        ∧ new = Build.assignment (Build.member target property) v.node) :
    Kept context.factoryNames c new := by
  rcases hnew with ⟨rfl, rfl⟩ | ⟨v, rfl, rfl⟩
  · refine kept_of_target _ hc hk hm ht Build.shaped_member (fun p => ?_) hkept heff
    simp
  · refine kept_of_target _ hc hk hm ht (fun hs => ?_) (fun p => ?_) hkept heff
    · have hv := hkept.subset (List.mem_singleton.2 rfl)
      exact Build.shaped_assignment (Build.shaped_member hs)
        (Cursor.shaped_of_mem_arguments hc.node hv)
    · simp

theorem keeps_prop : prop.Keeps := by
  refine Rule.keeps_ofSweeps (by decide) (Sweep.keeps_ofMethods ?_)
  intro context c m name new hc hk hm h
  split at h
  · simp [pure_eq_ok] at h
  · next arg rest hargs =>
      split at h
      · simp [pure_eq_ok] at h
      · next hlen =>
          obtain ⟨v, hv, h⟩ := bind_eq_ok.1 h
          split at h
          · simp [pure_eq_ok] at h
          · next t htext =>
              rw [filter_eq_some htext] at hv
              obtain ⟨-, h⟩ := unless_eq_ok.1 h
              obtain ⟨target, ht, h⟩ := bind_eq_ok.1 h
              cases target with
              | none => simp [pure_eq_ok] at h
              | some target =>
                  have heff := hc.effects_argument
                    (by rw [hargs]; exact List.mem_cons_self) hv
                  refine kept_property (propertySpelling t) rest hc hk hm ht ?_ ?_ ?_
                  · rw [hargs]
                    exact List.sublist_cons_self _ _
                  · rw [hargs, List.flatMap_cons, heff, List.nil_append]
                  · match rest, hlen, h with
                    | [], _, h =>
                        exact Or.inl ⟨rfl, (some_eq_of_ok h).symm⟩
                    | [value], _, h =>
                        exact Or.inr ⟨value, rfl, (some_eq_of_ok h).symm⟩
                    | _ :: _ :: _, hlen, _ => simp at hlen

theorem keeps_contentAccessors : contentAccessors.Keeps := by
  refine Rule.keeps_ofSweeps (by decide) (Sweep.keeps_ofMethods ?_)
  intro context c m name new hc hk hm h
  split at h
  · next hargs =>
      obtain ⟨target, ht, rfl⟩ := target_eq_ok h
      exact kept_property _ _ hc hk hm ht (List.Sublist.refl _) rfl
        (Or.inl ⟨hargs, rfl⟩)
  · next value hargs =>
      obtain ⟨b, -, h⟩ := bind_eq_ok.1 h
      obtain ⟨-, h⟩ := unless_eq_ok.1 h
      obtain ⟨target, ht, rfl⟩ := target_eq_ok h
      exact kept_property _ _ hc hk hm ht (List.Sublist.refl _) rfl
        (Or.inr ⟨value, hargs, rfl⟩)
  · simp [pure_eq_ok] at h

-- ================================================================ classes

theorem keeps_addRemoveClass : addRemoveClass.Keeps := by
  refine Rule.keeps_ofSweeps (by decide) (Sweep.keeps_ofMethods ?_)
  intro context c m name new hc hk hm h
  split at h
  · next arg hargs =>
      obtain ⟨-, h⟩ := unless_eq_ok.1 h
      obtain ⟨v, hv, h⟩ := bind_eq_ok.1 h
      split at h
      · simp [pure_eq_ok] at h
      · next t =>
          obtain ⟨-, h⟩ := unless_eq_ok.1 h
          obtain ⟨target, ht, rfl⟩ := target_eq_ok h
          have heff := hc.effects_argument
            (by rw [hargs]; exact List.mem_singleton.2 rfl) hv
          refine kept_of_target [] hc hk hm ht (fun hs => ?_)
            (fun p => ?_) (List.nil_sublist _) (by simp [hargs, heff])
          · refine Build.shaped_methodCall (Build.shaped_member hs) ?_
            intro a ha
            obtain ⟨u, -, rfl⟩ := List.mem_map.1 ha
            exact Build.shaped_string u
          · simp [classList, List.flatMap_map]
  · simp [pure_eq_ok] at h

theorem keeps_toggleClass : toggleClass.Keeps := by
  refine Rule.keeps_ofSweeps (by decide) (Sweep.keeps_ofMethods ?_)
  intro context c m name new hc hk hm h
  split at h
  · next arg hargs =>
      obtain ⟨-, h⟩ := unless_eq_ok.1 h
      obtain ⟨v, -, h⟩ := bind_eq_ok.1 h
      obtain ⟨-, h⟩ := unless_eq_ok.1 h
      obtain ⟨target, ht, rfl⟩ := target_eq_ok h
      exact kept_methodCall hargs hc hk hm ht Build.shaped_member
        fun p => Build.listed_member p target _
  · simp [pure_eq_ok] at h

theorem keeps_hasClass : hasClass.Keeps := by
  refine Rule.keeps_ofSweeps (by decide) (Sweep.keeps_ofMethods ?_)
  intro context c m name new hc hk hm h
  split at h
  · next arg hargs =>
      obtain ⟨v, -, h⟩ := bind_eq_ok.1 h
      obtain ⟨-, h⟩ := unless_eq_ok.1 h
      obtain ⟨target, ht, rfl⟩ := target_eq_ok h
      exact kept_methodCall hargs hc hk hm ht Build.shaped_member
        fun p => Build.listed_member p target _
  · simp [pure_eq_ok] at h

-- ====================================================== display and size

theorem keeps_showHide : showHide.Keeps := by
  refine Rule.keeps_ofSweeps (by decide) (Sweep.keeps_ofMethods ?_)
  intro context c m name new hc hk hm h
  obtain ⟨hargs, h⟩ := unless_eq_ok.1 h
  obtain ⟨target, ht, rfl⟩ := target_eq_ok h
  have hnil : c.arguments = [] := by
    simp only [Bool.or_eq_false_iff, Bool.not_eq_false', List.isEmpty_iff] at hargs
    exact hargs.1
  refine kept_of_target [] hc hk hm ht (fun hs => ?_) (fun p => ?_)
    (List.nil_sublist _) (by rw [hnil])
  · exact Build.shaped_assignment (Build.shaped_member (Build.shaped_member hs))
      (Build.shaped_string _)
  · simp

theorem keeps_css : css.Keeps := by
  refine Rule.keeps_ofSweeps (by decide) (Sweep.keeps_ofMethods ?_)
  intro context c m name new hc hk hm h
  split at h
  · next n hargs =>
      obtain ⟨v, hv, h⟩ := bind_eq_ok.1 h
      split at h
      · simp [pure_eq_ok] at h
      · next t htext =>
          rw [filter_eq_some htext] at hv
          obtain ⟨-, h⟩ := unless_eq_ok.1 h
          obtain ⟨target, ht, rfl⟩ := target_eq_ok h
          have heff := hc.effects_argument
            (by rw [hargs]; exact List.mem_singleton.2 rfl) hv
          refine kept_of_target [] hc hk hm ht (fun hs => ?_) (fun p => ?_)
            (List.nil_sublist _) (by simp [hargs, heff])
          · refine Build.shaped_methodCall
              (Build.shaped_call (Build.shaped_identifier _) ?_) ?_
            · simpa using hs
            · simpa using Build.shaped_string _
          · simp
  · next n value hargs =>
      obtain ⟨v, hv, h⟩ := bind_eq_ok.1 h
      split at h
      · simp [pure_eq_ok] at h
      · next t htext =>
          rw [filter_eq_some htext] at hv
          obtain ⟨u, -, h⟩ := bind_eq_ok.1 h
          split at h
          · simp [pure_eq_ok] at h
          · obtain ⟨-, h⟩ := unless_eq_ok.1 h
            obtain ⟨target, ht, rfl⟩ := target_eq_ok h
            have heff := hc.effects_argument
              (by rw [hargs]; exact List.mem_cons_self) hv
            have hshape := hc.arguments
            rw [hargs] at hshape
            refine kept_of_target [value] hc hk hm ht (fun hs => ?_)
              (fun p => ?_) ?_ (by simp [hargs, heff])
            · refine Build.shaped_methodCall (Build.shaped_member hs) ?_
              intro a ha
              simp only [List.mem_cons, List.not_mem_nil, or_false] at ha
              rcases ha with rfl | rfl
              · exact Build.shaped_string _
              · exact hshape _ (by simp)
            · simp
            · rw [hargs]
              exact List.sublist_cons_self _ _
  · simp [pure_eq_ok] at h

theorem keeps_windowSize : windowSize.Keeps := by
  refine Rule.keeps_ofSweeps (by decide) (Sweep.keeps_ofMethods ?_)
  intro context c m name new hc hk hm h
  obtain ⟨hargs, h⟩ := unless_eq_ok.1 h
  have hnil : c.arguments = [] := by simpa using hargs
  split at h
  · simp [pure_eq_ok] at h
  · next receiver hr =>
      obtain ⟨o, ho, rfl⟩ := Cursor.inner?_eq_some.1 hr
      obtain ⟨wrapped, hw, h⟩ := bind_eq_ok.1 h
      split at h
      · simp [pure_eq_ok] at h
      · next wrapped =>
          obtain ⟨hwindow, h⟩ := unless_eq_ok.1 h
          obtain ⟨-, h⟩ := unless_eq_ok.1 h
          obtain rfl := some_eq_of_ok h
          have hident : wrapped.unparen.is .identifier = true := by
            simp only [Node.isIdentifier, Bool.or_eq_false_iff,
              Bool.not_eq_false', Bool.and_eq_true] at hwindow
            exact hwindow.1.1
          have hmem : o.unparen ∈ c.walk :=
            Cursor.mem_walk_trans (Cursor.calledMember_mem_walk hm)
              (Cursor.mem_walk_trans (Cursor.mem_walk_of_child? ho)
                (Cursor.unparen_mem_walk o))
          have hstands : StandsFor context.factoryNames o.unparen
              (Build.member (Build.member (Build.identifier "document")
                "documentElement") (clientSize name)) := by
            refine standsFor_wrapped (hc.of_mem_walk hmem).node
              (Cursor.unparen_unparen o) hw hident ?_ fun p => by simp
            exact Build.shaped_member
              (Build.shaped_member (Build.shaped_identifier _))
          refine kept_of_receiver hc.node hk hm ho hstands hstands.shaped ?_ ?_
          · intro p
            rw [hnil, List.flatMap_nil, List.append_nil]
          · rw [hnil, List.flatMap_nil, List.append_nil]

-- ================================================================= events

theorem keeps_addListener : addListener.Keeps := by
  refine Rule.keeps_ofSweeps (by decide) (Sweep.keeps_ofMethods ?_)
  intro context c m name new hc hk hm h
  split at h
  · next event handler hargs =>
      obtain ⟨b, -, h⟩ := bind_eq_ok.1 h
      obtain ⟨-, h⟩ := unless_eq_ok.1 h
      obtain ⟨-, h⟩ := unless_eq_ok.1 h
      obtain ⟨target, ht, rfl⟩ := target_eq_ok h
      exact kept_methodCall hargs hc hk hm ht id fun p => rfl
  · simp [pure_eq_ok] at h

theorem keeps_removeListener : removeListener.Keeps := by
  refine Rule.keeps_ofSweeps (by decide) (Sweep.keeps_ofMethods ?_)
  intro context c m name new hc hk hm h
  split at h
  · next event handler hargs =>
      obtain ⟨b, -, h⟩ := bind_eq_ok.1 h
      obtain ⟨-, h⟩ := unless_eq_ok.1 h
      obtain ⟨-, h⟩ := unless_eq_ok.1 h
      obtain ⟨-, h⟩ := unless_eq_ok.1 h
      obtain ⟨target, ht, rfl⟩ := target_eq_ok h
      exact kept_methodCall hargs hc hk hm ht id fun p => rfl
  · simp [pure_eq_ok] at h

theorem keeps_trigger : trigger.Keeps := by
  refine Rule.keeps_ofSweeps (by decide) (Sweep.keeps_ofMethods ?_)
  intro context c m name new hc hk hm h
  split at h
  · next event hargs =>
      obtain ⟨b, -, h⟩ := bind_eq_ok.1 h
      obtain ⟨-, h⟩ := unless_eq_ok.1 h
      obtain ⟨-, h⟩ := unless_eq_ok.1 h
      obtain ⟨target, ht, rfl⟩ := target_eq_ok h
      have hshape := hc.arguments
      rw [hargs] at hshape
      refine kept_of_target [event] hc hk hm ht (fun hs => ?_) (fun p => ?_)
        (by rw [hargs]) (by rw [hargs])
      · refine Build.shaped_methodCall hs ?_
        intro a ha
        rw [List.mem_singleton.1 ha]
        refine Build.shaped_newExpression (Build.shaped_identifier _) ?_
        intro b hb
        simp only [List.mem_cons, List.not_mem_nil, or_false] at hb
        rcases hb with rfl | rfl
        · exact hshape _ (by simp)
        · exact Build.shaped_object_one (Node.shaped_leaf _ _)
      · simp
  · simp [pure_eq_ok] at h

-- ============================================================== traversal

/-- The wrapper around something made of the element. -/
theorem kept_rewrapped {build : Node → Node} {kept : List Cursor}
    (hargs : c.arguments = kept) (hc : c.Stands)
    (hk : c.is .callExpression = true) (hm : c.calledMember? = some (m, name))
    (h : rewrapped context m build = .ok (some new))
    (hshape : ∀ target, target.Shaped → (build target).Shaped)
    (hlisted : ∀ target p, (build target).listed p
      = target.listed p ++ kept.flatMap (·.node.listed p)) :
    Kept context.factoryNames c new := by
  unfold rewrapped at h
  obtain ⟨factory, -, h⟩ := bind_eq_ok.1 h
  cases factory with
  | none => simp [pure_eq_ok] at h
  | some factory =>
      obtain ⟨target, ht, rfl⟩ := target_eq_ok h
      refine kept_of_target kept hc hk hm ht (fun hs => ?_) (fun p => ?_)
        (by rw [hargs]) (by rw [hargs])
      · refine Build.shaped_call (Build.shaped_identifier _) ?_
        simpa using hshape target hs
      · simp [rewrap, hlisted]

theorem keeps_neighbours : neighbours.Keeps := by
  refine Rule.keeps_ofSweeps (by decide) (Sweep.keeps_ofMethods ?_)
  intro context c m name new hc hk hm h
  obtain ⟨hargs, h⟩ := unless_eq_ok.1 h
  have hnil : c.arguments = [] := by simpa using hargs
  exact kept_rewrapped hnil hc hk hm h (fun _ => Build.shaped_member)
    fun target p => by simp

theorem keeps_closest : closest.Keeps := by
  refine Rule.keeps_ofSweeps (by decide) (Sweep.keeps_ofMethods ?_)
  intro context c m name new hc hk hm h
  split at h
  · next selector hargs =>
      obtain ⟨v, -, h⟩ := bind_eq_ok.1 h
      obtain ⟨-, h⟩ := unless_eq_ok.1 h
      have hshape := hc.arguments
      rw [hargs] at hshape
      exact kept_rewrapped hargs hc hk hm h
        (fun _ hs => Build.shaped_methodCall hs hshape) fun target p => by simp
  · simp [pure_eq_ok] at h

theorem keeps_find : find.Keeps := by
  refine Rule.keeps_ofSweeps (by decide) (Sweep.keeps_ofMethods ?_)
  intro context c m name new hc hk hm h
  split at h
  · next selector hargs =>
      obtain ⟨v, -, h⟩ := bind_eq_ok.1 h
      split at h
      · simp [pure_eq_ok] at h
      · have hshape := hc.arguments
        rw [hargs] at hshape
        exact kept_rewrapped hargs hc hk hm h
          (fun _ hs => Build.shaped_methodCall hs hshape) fun target p => by simp
  · simp [pure_eq_ok] at h

theorem shaped_siblingsOf {target : Node} {selector : Option Node}
    (h : target.Shaped) (hs : ∀ s ∈ selector, s.Shaped) :
    (siblingsOf target selector).Shaped := by
  unfold siblingsOf
  simp only
  refine Build.shaped_methodCall (Build.shaped_methodCall
    (Build.shaped_identifier _) ?_) ?_
  · simp only [List.mem_singleton, forall_eq]
    exact Build.shaped_binary
      (Build.shaped_memberNode (Build.shaped_member h) rfl)
      (Build.shaped_array (by simp))
  · simp only [List.mem_singleton, forall_eq]
    have hothers : (Build.binary (Build.identifier siblingName) "!=="
        target.copy).Shaped :=
      Build.shaped_binary (Build.shaped_identifier _) (Node.shaped_copy.2 h)
    refine Build.shaped_arrow (by simpa using Build.shaped_identifier _) ?_
    cases selector with
    | none => exact hothers
    | some s =>
        refine Build.shaped_binary hothers ?_
        refine Build.shaped_methodCall (Build.shaped_identifier _) ?_
        simpa using hs s rfl

theorem listed_siblingsOf (target : Node) (selector : Option Node)
    (p : Kind → Bool → Bool) : (siblingsOf target selector).listed p
      = target.listed p ++ selector.toList.flatMap (Node.listed p) := by
  unfold siblingsOf
  cases selector <;> simp

theorem keeps_siblings : siblings.Keeps := by
  refine Rule.keeps_ofSweeps (by decide) (Sweep.keeps_ofMethods ?_)
  intro context c m name new hc hk hm h
  split at h
  · simp [pure_eq_ok] at h
  · next hlen =>
      obtain ⟨b, -, h⟩ := bind_eq_ok.1 h
      obtain ⟨-, h⟩ := unless_eq_ok.1 h
      obtain ⟨-, h⟩ := unless_eq_ok.1 h
      obtain ⟨b, -, h⟩ := bind_eq_ok.1 h
      obtain ⟨-, h⟩ := unless_eq_ok.1 h
      have hshape := hc.arguments
      refine kept_rewrapped rfl hc hk hm h (fun _ hs => ?_) fun target p => ?_
      · refine shaped_siblingsOf hs fun s hs => ?_
        obtain ⟨a, ha, rfl⟩ := Option.map_eq_some_iff.1 hs
        exact hshape _ (List.mem_map.2 ⟨a, List.mem_of_mem_head? ha, rfl⟩)
      · rw [listed_siblingsOf]
        match hargs : c.arguments with
        | [] => rfl
        | [a] => simp
        | _ :: _ :: _ => simp [hargs] at hlen

-- ============================================================== insertion

theorem keeps_removeAndEmpty : removeAndEmpty.Keeps := by
  refine Rule.keeps_ofSweeps (by decide) (Sweep.keeps_ofMethods ?_)
  intro context c m name new hc hk hm h
  obtain ⟨hargs, h⟩ := unless_eq_ok.1 h
  obtain ⟨target, ht, rfl⟩ := target_eq_ok h
  have hnil : c.arguments = [] := by
    simp only [Bool.or_eq_false_iff, Bool.not_eq_false', List.isEmpty_iff] at hargs
    exact hargs.1
  exact kept_methodCall hnil hc hk hm ht id fun p => rfl

theorem keeps_insertion : insertion.Keeps := by
  refine Rule.keeps_ofSweeps (by decide) (Sweep.keeps_ofMethods ?_)
  intro context c m name new hc hk hm h
  split at h
  · next arg hargs =>
      obtain ⟨-, h⟩ := unless_eq_ok.1 h
      obtain ⟨target, ht, rfl⟩ := target_eq_ok h
      exact kept_methodCall hargs hc hk hm ht id fun p => rfl
  · simp [pure_eq_ok] at h

end Rules

end Codemod
