/-
What the rules write.

A rule puts something in the place of a method call, of a call of the
factory or of a comparison, and builds it of their parts. There are few
ways to do so: `MethodForm`, `FactoryForm` and `IdiomForm` have one
constructor for each, with what the rule has made sure of before. What
follows about rewrites is proved once for each way, and not for each
rule (`Rule.writes_of_mem`).

Most rules spend the method that they look for: what they write calls
none of the `spentMethods`, save where a property takes its name from the
program. The others keep the name of the method, or look for no method.
-/
import Codemod.Proofs.Rule.Run
import Codemod.Proofs.Tree.Unified

namespace Codemod

/-- The methods that rules take out of the program for good. -/
def spentMethods : List String := [
  "show", "hide", "css", "width", "height", "addClass", "removeClass",
  "toggleClass", "hasClass", "attr", "removeAttr", "prop", "val", "text",
  "html", "on", "off", "trigger", "ready", "parent", "next", "prev",
  "children", "find", "siblings", "empty", "each", "grep", "inArray", "pow",
  "substr", "indexOf", "substring", "from"]

/-- The name is that of a method that rules take out. -/
def isSpent (name : Text) : Bool := name.isOneOf spentMethods

-- ============================================================== wrappers

/-- The expression is a wrapper that the call has made. -/
inductive WrapperOf (names : List Text) (c : Cursor) : Cursor → Prop where
  | direct : c.isFactoryCall names = .ok true → WrapperOf names c c.unparen
  | bound {init : Cursor} : c.unparen.is .identifier = true →
    c.unparen.resolve? c.unparen.code = some init →
    init.isFactoryCall names = .ok true → WrapperOf names c init.unparen

/-- How a rule gets at the element behind a receiver: it takes it out of
the call of the factory, looks it up, or copies it from the initializer
of a name. -/
inductive ElementOf (context : RuleContext) (receiver : Cursor) :
    Node → Prop where
  | moved {a : Cursor} :
    receiver.isFactoryCall context.factoryNames = .ok true →
    receiver.arguments = [a] → a.isElement = true →
    ElementOf context receiver a.node
  | lookedUp {a : Cursor} {i : Text} :
    receiver.isFactoryCall context.factoryNames = .ok true →
    receiver.arguments = [a] → a.idSelector? = .ok (some i) →
    receiver.isGlobal "document" = true → ElementOf context receiver (elementById i)
  | copied {init a : Cursor} : receiver.is .identifier = true →
    receiver.resolve? receiver.code = some init →
    init.isFactoryCall context.factoryNames = .ok true →
    init.unparen.arguments = [a] → a.isElement = true →
    a.isStableAt receiver = .ok true →
    ElementOf context receiver a.node.copy

/-- The element behind the receiver of a member access. -/
def Cursor.HasElement (context : RuleContext) (m : Cursor) (target : Node) :
    Prop :=
  ∃ o, m.child? .object = some o ∧ ElementOf context o.unparen target

/-- The factory has this name where it makes the wrapper behind a member
access. -/
def Cursor.HasFactory (context : RuleContext) (m : Cursor) (factory : Text) :
    Prop :=
  factory ∈ context.factoryNames ∧ ∃ o call f, m.child? .object = some o
    ∧ WrapperOf context.factoryNames o.unparen call
    ∧ call.child? .function = some f ∧ f.code = factory

section Wrappers

variable {names : List Text} {context : RuleContext} {c call m : Cursor}
  {p : Provenance} {target : Node}

theorem Cursor.isFactoryCall_unparen :
    c.unparen.isFactoryCall names = c.isFactoryCall names := by
  unfold Cursor.isFactoryCall
  simp only [Cursor.unparen_unparen]

/-- A wrapper is a call of the factory, or a name bound to one. -/
theorem wrapperCall?_cases (h : c.wrapperCall? names = .ok (some (p, call))) :
    WrapperOf names c call ∧ (p = .direct ↔ c.isFactoryCall names = .ok true) := by
  unfold Cursor.wrapperCall? at h
  obtain ⟨b, hb, h⟩ := bind_eq_ok.1 h
  rw [Cursor.isFactoryCall_unparen] at hb
  cases b with
  | true =>
      simp only [if_true, pure_eq_ok, Option.some.injEq, Prod.mk.injEq] at h
      obtain ⟨rfl, rfl⟩ := h
      exact ⟨.direct hb, by simp [hb]⟩
  | false =>
      simp only [Bool.false_eq_true, if_false] at h
      split at h
      · simp [pure_eq_ok] at h
      · next hk =>
          split at h
          · simp [pure_eq_ok] at h
          · split at h
            · simp [pure_eq_ok] at h
            · split at h
              · simp [pure_eq_ok] at h
              · next init hinit =>
                  obtain ⟨b, hf, h⟩ := bind_eq_ok.1 h
                  cases b with
                  | false => simp [pure_eq_ok] at h
                  | true =>
                      simp only [Bool.not_true, Bool.false_eq_true,
                        if_false] at h
                      split at h
                      · split at h
                        · simp only [pure_eq_ok, Option.some.injEq,
                            Prod.mk.injEq] at h
                          obtain ⟨rfl, rfl⟩ := h
                          exact ⟨.bound (by simpa using hk) hinit hf,
                            by simp [hb]⟩
                        · simp [pure_eq_ok] at h
                      · simp [pure_eq_ok] at h

/-- A call of the factory is a wrapper. -/
theorem wrapperCall?_of_isFactoryCall (h : c.isFactoryCall names = .ok true) :
    c.wrapperCall? names = .ok (some (.direct, c.unparen)) := by
  unfold Cursor.wrapperCall?
  simp only [Cursor.isFactoryCall_unparen, h]
  rfl

theorem WrapperOf.arguments (h : WrapperOf names c call) :
    ∃ a, call.arguments = [a] := by
  cases h with
  | direct hf =>
      obtain ⟨-, -, a, ha⟩ := Cursor.isFactoryCall_spec hf
      exact ⟨a, ha⟩
  | bound _ _ hf =>
      obtain ⟨-, -, a, ha⟩ := Cursor.isFactoryCall_spec hf
      exact ⟨a, ha⟩

/-- The function of a call of the factory is an identifier with one of its
names, which means the factory at the call. -/
theorem isFactoryCall_callee (h : c.isFactoryCall names = .ok true) :
    ∃ f, c.unparen.child? .function = some f ∧ f.is .identifier = true
      ∧ f.code ∈ names ∧ c.unparen.meansFactory names f.code = .ok true := by
  unfold Cursor.isFactoryCall at h
  simp only at h
  split at h
  · cases h
  · split at h
    · cases h
    · next f hf =>
        split at h
        · cases h
        · next hident =>
            split at h
            · split at h
              · cases h
              · simp only [Bool.or_eq_true, not_or, Bool.not_eq_true',
                  Bool.not_eq_false, List.contains_iff_mem] at hident
                exact ⟨f, hf, hident.1.1, hident.1.2, h⟩
            · cases h

theorem WrapperOf.callee (h : WrapperOf names c call) :
    ∃ f, call.child? .function = some f ∧ f.code ∈ names := by
  cases h with
  | direct hf =>
      obtain ⟨f, hf, -, hmem, -⟩ := isFactoryCall_callee hf
      exact ⟨f, hf, hmem⟩
  | bound _ _ hf =>
      obtain ⟨f, hf, -, hmem, -⟩ := isFactoryCall_callee hf
      exact ⟨f, hf, hmem⟩

/-- What is put in the place of a receiver that is an element is its
element. -/
theorem elementOf_wrapperTarget? (hu : c.unparen = c)
    (hw : c.wrapperCall? context.factoryNames = .ok (some (p, call)))
    (helement : ∀ a, call.arguments.head? = some a → a.isElement = true)
    (h : c.wrapperTarget? context.factoryNames = .ok (some target)) :
    ElementOf context c target := by
  obtain ⟨hwrap, hp⟩ := wrapperCall?_cases hw
  unfold Cursor.wrapperTarget? at h
  obtain ⟨r, hr, h⟩ := bind_eq_ok.1 h
  rw [hw, Except.ok.injEq] at hr
  subst hr
  obtain ⟨a, ha⟩ := hwrap.arguments
  rw [ha, List.head?_cons] at helement
  simp only [ha, List.head?_cons] at h
  cases hwrap with
  | direct hf =>
      rw [hu] at ha
      obtain rfl := hp.2 hf
      obtain rfl := some_eq_of_ok h
      exact .moved hf ha (helement a rfl)
  | @bound init hk hinit hf =>
      rw [hu] at hk hinit
      split at h
      · next hd =>
          -- a name is no call of the factory
          have hcall := hp.1 (by simpa using hd)
          have hkc := (Cursor.isFactoryCall_spec hcall).1
          rw [hu] at hkc
          have h1 : c.node.kind = .symbol .callExpression := by
            simpa [Cursor.is, Node.is] using hkc
          have h2 : c.node.kind = .symbol .identifier := by
            simpa [Cursor.is, Node.is] using hk
          rw [h1] at h2
          cases h2
      · obtain ⟨b, hb, h⟩ := bind_eq_ok.1 h
        cases b with
        | false => simp [pure_eq_ok] at h
        | true =>
            obtain rfl := some_eq_of_ok h
            rw [hu] at hb
            exact .copied hk hinit hf ha (helement a rfl) hb

/-- A rule that has found the element behind a receiver. -/
theorem receiverTarget?_element
    (h : receiverTarget? context m = .ok (some target)) :
    m.HasElement context target := by
  unfold receiverTarget? at h
  simp only at h
  split at h
  · simp [pure_eq_ok] at h
  · next receiver hr =>
      obtain ⟨o, ho, rfl⟩ := Cursor.inner?_eq_some.1 hr
      refine ⟨o, ho, ?_⟩
      have hu := Cursor.unparen_unparen o
      obtain ⟨w, hw, h⟩ := bind_eq_ok.1 h
      cases w with
      | none => simp [pure_eq_ok] at h
      | some pc =>
          obtain ⟨p, call⟩ := pc
          obtain ⟨hwrap, hp⟩ := wrapperCall?_cases hw
          obtain ⟨arg, harg⟩ := hwrap.arguments
          simp only [harg, List.head?_cons] at h
          obtain ⟨id, hid, h⟩ := bind_eq_ok.1 h
          generalize hus : (if id.isSome = true then _ else arg.isElement)
            = usable at h
          cases usable with
          | false => simp [pure_eq_ok] at h
          | true =>
              simp only [Bool.not_true, Bool.false_eq_true, if_false] at h
              cases id with
              | none =>
                  refine elementOf_wrapperTarget? hu hw ?_ ?_
                  · rw [harg, List.head?_cons]
                    rintro a ⟨⟩
                    exact hus
                  · split at h
                    · obtain ⟨b, -, h⟩ := bind_eq_ok.1 h
                      split at h
                      · simp [pure_eq_ok] at h
                      · exact h
                    · exact h
              | some i =>
                  have hd : p = .direct := by
                    simp only [Option.isSome_some, if_true, Bool.and_eq_true,
                      beq_iff_eq] at hus
                    exact hus.1
                  have hf := hp.1 hd
                  obtain rfl : elementById i = target := by
                    split at h
                    · obtain ⟨b, -, h⟩ := bind_eq_ok.1 h
                      split at h
                      · simp [pure_eq_ok] at h
                      · exact some_eq_of_ok h
                    · exact some_eq_of_ok h
                  have hglobal : o.unparen.isGlobal "document" = true := by
                    simp only [Option.isSome_some, if_true, Bool.and_eq_true] at hus
                    exact hus.2
                  cases hwrap with
                  | direct _ =>
                      rw [hu] at harg
                      exact .lookedUp hf harg hid hglobal
                  | bound hk _ _ =>
                      have hkc := (Cursor.isFactoryCall_spec hf).1
                      have h1 : o.unparen.unparen.node.kind
                          = .symbol .callExpression := by
                        simpa [Cursor.is, Node.is] using hkc
                      have h2 : o.unparen.unparen.node.kind
                          = .symbol .identifier := by
                        simpa [Cursor.is, Node.is] using hk
                      rw [h1] at h2
                      cases h2

end Wrappers

-- ================================================================= forms

/-- A property of a property, and so on, of an expression. -/
def Build.path (e : Node) (names : List Text) : Node := names.foldl member e

/-- What sweeps over calls of methods write: the call is `c`, the member
access that it calls is `m`, and `name` is the name there. -/
inductive MethodForm (context : RuleContext) (c m : Cursor) (name : Text) :
    List String → Node → Prop where
  /-- A method of the element, or of a part of it. -/
  | tell {names : List String} {target : Node} {method : Text}
    (path words : List Text) (kept : List Cursor) :
    names ⊆ spentMethods → isSpent method = false →
    (∀ t ∈ method :: path, t.IsUnified) →
    m.HasElement context target → kept.Sublist c.arguments →
    MethodForm context c m name names (Build.methodCall (Build.path target path)
      method (words.map Build.string ++ kept.map (·.node)))
  /-- A property with a name of its own. -/
  | read {names : List String} {target : Node} {property : Text} :
    names ⊆ spentMethods → isSpent property = false → property.IsUnified →
    m.HasElement context target →
    MethodForm context c m name names (Build.member target property)
  /-- A property that the program names. -/
  | prop {target : Node} {property : Text} : property.IsUnified →
    m.HasElement context target →
    MethodForm context c m name ["prop"] (Build.member target property)
  | write {names : List String} {target : Node} {value : Cursor}
    (path : List Text) : names ⊆ spentMethods → (∀ t ∈ path, t.IsUnified) →
    m.HasElement context target → value ∈ c.arguments → MethodForm context c m name names
      (Build.assignment (Build.path target path) value.node)
  | display {names : List String} {target : Node} {word : Text}
    (path : List Text) : names ⊆ spentMethods → (∀ t ∈ path, t.IsUnified) →
    m.HasElement context target → MethodForm context c m name names
      (Build.assignment (Build.path target path) (Build.string word))
  | computed {target : Node} {word : Text} : m.HasElement context target →
    MethodForm context c m name ["css"] (Build.methodCall
      (Build.call (Build.identifier "getComputedStyle") [target])
      "getPropertyValue" [Build.string word])
  | dispatch {target : Node} {event : Cursor} : m.HasElement context target →
    c.arguments = [event] →
    MethodForm context c m name ["trigger"] (Build.methodCall target
      "dispatchEvent" [Build.newExpression (Build.identifier "Event")
        [event.node, Build.object [("bubbles", Build.boolean true)]]])
  /-- The size of the window, which is wrapped. -/
  | size {o call : Cursor} : m.child? .object = some o →
    WrapperOf context.factoryNames o.unparen call →
    MethodForm context c m name ["width", "height"]
      (Build.path (Build.identifier "document")
        ["documentElement", Rules.clientSize name])
  | loaded {o handler : Cursor} : m.child? .object = some o →
    o.unparen.isFactoryCall context.factoryNames = .ok true →
    c.arguments = [handler] →
    MethodForm context c m name ["ready"] (Rules.whenLoaded handler.node)
  /-- A neighbour, wrapped again. -/
  | neighbour {factory property : Text} {target : Node} :
    m.HasFactory context factory → property.IsUnified → m.HasElement context target →
    MethodForm context c m name ["parent", "next", "prev", "children"]
      (rewrap factory (Build.member target property))
  | found {factory : Text} {target : Node} {selector : Cursor} :
    m.HasFactory context factory → m.HasElement context target →
    c.arguments = [selector] →
    MethodForm context c m name ["find"] (rewrap factory
      (Build.methodCall target "querySelectorAll" [selector.node]))
  | closest {factory t : Text} {target : Node} {selector : Cursor} :
    m.HasFactory context factory → m.HasElement context target →
    c.arguments = [selector] → selector.node.stringValue = .ok (some t) →
    MethodForm context c m name ["closest"] (rewrap factory
      (Build.methodCall target "closest" [selector.node]))
  | siblings {factory : Text} {target : Node} :
    m.HasFactory context factory → m.HasElement context target →
    c.arguments.length ≤ 1 →
    (∀ a ∈ c.arguments, ∃ t, a.node.stringValue = .ok (some t)) →
    target.strip.isAny [.identifier, .thisExpr] = true →
    MethodForm context c m name ["siblings"] (rewrap factory
      (Rules.siblingsOf target (c.arguments.head?.map (·.node))))
  | remove {target : Node} : name = Text.ofString "remove" →
    m.HasElement context target → c.arguments = [] →
    MethodForm context c m name ["remove", "empty"]
      (Build.methodCall target "remove" [])
  | empty {target : Node} : name ≠ Text.ofString "remove" →
    m.HasElement context target → c.arguments = [] →
    MethodForm context c m name ["remove", "empty"]
      (Build.methodCall target "replaceChildren" [])
  | insert {target : Node} {arg : Cursor} : m.HasElement context target →
    c.arguments = [arg] →
    MethodForm context c m name ["append", "prepend", "before", "after"]
      (Build.methodCall target name [arg.node])
  | visit {o selector callback : Cursor} {params : List Cursor} :
    m.child? .object = some o →
    o.unparen.isFactoryCall context.factoryNames = .ok true →
    o.unparen.arguments = [selector] → c.arguments = [callback] →
    callback.unparen.simpleParameters? = some params →
    MethodForm context c m name ["each"]
      (Build.methodCall (Rules.queryAll selector.node) "forEach"
        [Rules.visitor callback callback.unparen params])
  | each {o array callback : Cursor} {renewed : Node} :
    m.child? .object = some o →
    o.isFactoryIdentifier context.factoryNames = .ok true →
    c.arguments = [array, callback] →
    (renewed = callback.node ∨ ∃ index value,
      callback.unparen.simpleParameters? = some [index, value]
        ∧ renewed = callback.node.exchanging index value) →
    MethodForm context c m name ["each"]
      (Build.methodCall array.node "forEach" [renewed])
  | grep {o array callback : Cursor} : m.child? .object = some o →
    o.isFactoryIdentifier context.factoryNames = .ok true →
    c.arguments = [array, callback] →
    MethodForm context c m name ["grep"]
      (Build.methodCall array.node "filter" [callback.node])
  | map {o array callback : Cursor} : m.child? .object = some o →
    o.isFactoryIdentifier context.factoryNames = .ok true →
    c.arguments = [array, callback] → array.isArray true = true →
    MethodForm context c m name ["map"]
      (Build.methodCall array.node "map" [callback.node])
  | trim {o text : Cursor} : m.child? .object = some o →
    o.isFactoryIdentifier context.factoryNames = .ok true →
    c.arguments = [text] → text.isString = true →
    MethodForm context c m name ["trim"] (Build.methodCall text.node "trim" [])

/-- What sweeps over calls of the factory write; the argument is
`arg`. -/
inductive FactoryForm (context : RuleContext) (c arg : Cursor) : Node → Prop where
  | byId {id : Text} : arg.idSelector? = .ok (some id) →
    c.isGlobal "document" = true → FactoryForm context c arg (elementById id)
  | byClass {t : Text} : arg.node.stringValue = .ok (some t) →
    c.isGlobal "document" = true → FactoryForm context c arg (Rules.queryAll arg.node)
  | unwrap : arg.isElement = true →
    c.isChainFoldable context.transformableMembers = true →
    FactoryForm context c arg arg.node
  | loaded : arg.isFunctionValue = true → c.isGlobal "document" = true →
    FactoryForm context c arg (Rules.whenLoaded arg.node)

/-- What the rules for wrappers write. -/
inductive WrapperForm (context : RuleContext) (c : Cursor) :
    List String → Node → Prop where
  | method {m : Cursor} {name : Text} {names : List String} {new : Node} :
    names ≠ [] → c.calledMember? = some (m, name) →
    MethodForm context c m name names new → WrapperForm context c names new
  | factory {arg : Cursor} {new : Node} :
    c.isFactoryCall context.factoryNames = .ok true → c.arguments = [arg] →
    FactoryForm context c arg new → WrapperForm context c [] new
  | inArray {call other m o value array : Cursor} {negated : Bool} :
    Compares c call other → call.is .callExpression = true →
    call.calledMember? = some (m, Text.ofString "inArray") →
    m.child? .object = some o →
    o.isFactoryIdentifier context.factoryNames = .ok true →
    call.arguments = [value, array] →
    WrapperForm context c [] (Build.negatedIf negated
      (Build.methodCall array.node "includes" [value.node]))

/-- What the rules for older idioms write. -/
inductive IdiomForm (c : Cursor) : Node → Prop where
  | power {m base exponent : Cursor} :
    c.calledMember? = some (m, Text.ofString "pow") →
    c.arguments = [base, exponent] →
    IdiomForm c (Build.binary base.node "**" exponent.node)
  | slice {m o : Cursor} {name : Text} (numbers : List Text)
    (kept : List Cursor) : c.calledMember? = some (m, name) →
    isSpent name = true → (∀ t ∈ numbers, t.IsUnified) →
    m.child? .object = some o → kept.Sublist c.arguments →
    IdiomForm c (Build.methodCall o.unparen.node "slice"
      (numbers.map Build.number ++ kept.map (·.node)))
  | spread {m arg : Cursor} {name : Text} :
    c.calledMember? = some (m, name) → isSpent name = true →
    c.arguments = [arg] → IdiomForm c (Build.array [Build.spread arg.node])
  /-- A test of the receiver with the argument of the index call. -/
  | test {call other m o arg : Cursor} {name method : Text}
    {receiver : Node} {negated : Bool} : Compares c call other →
    call.is .callExpression = true → call.calledMember? = some (m, name) →
    isSpent name = true → isSpent method = false → method.IsUnified →
    m.child? .object = some o →
    receiver = o.node ∨ receiver = o.unparen.node → call.arguments = [arg] →
    IdiomForm c (Build.negatedIf negated
      (Build.methodCall receiver method [arg.node]))
  /-- A test of the receiver with what the call is compared with. -/
  | start {call other m o : Cursor} {name : Text} {negated : Bool} :
    Compares c call other → call.is .callExpression = true →
    call.calledMember? = some (m, name) → isSpent name = true →
    m.child? .object = some o →
    IdiomForm c (Build.negatedIf negated
      (Build.methodCall o.unparen.node "startsWith" [other.node]))

/-- What a sweep writes in the place of anything but parentheses is of one
form. A sweep with `names` looks at calls of these methods. -/
structure Sweep.Writes (s : Sweep) (names : List String)
    (P : RuleContext → Cursor → Node → Prop) : Prop where
  named : names ≠ [] → ∀ c, s.isCandidate c = true → c.isMethodCall names = true
  written : ∀ context c new, c.unparen = c →
    s.replacement context c = .ok (some new) → P context c new

/-- What the built-in rules write. -/
inductive Rule.Writes (rule : Rule) : Prop where
  | wrappers {sweeps : List Sweep} : rule.group = "jquery" →
    rule.action = .sweeps sweeps →
    (∀ s ∈ sweeps, ∃ names, s.Writes names fun context c new =>
      WrapperForm context c names new) → Writes rule
  | idioms {sweeps : List Sweep} : rule.group = "legacy" →
    rule.action = .sweeps sweeps →
    (∀ s ∈ sweeps, s.Writes [] fun _ c new => IdiomForm c new) → Writes rule
  | directives : rule = Rules.useStrict → Writes rule

/-- What a sweep over methods writes. -/
theorem Sweep.writes_ofMethods {names : List String}
    {f : RuleContext → Cursor → Cursor → Text → List Cursor → Check (Option Node)}
    (hne : names ≠ []) (h : ∀ context c m name new, c.calledMember? = some (m, name) →
      f context c m name c.arguments = .ok (some new) →
      MethodForm context c m name names new) :
    (Sweep.ofMethods names f).Writes names fun context c new =>
      WrapperForm context c names new := by
  refine ⟨fun _ c hc => hc, fun context c new _ hr => ?_⟩
  simp only [Sweep.ofMethods] at hr
  split at hr
  · next m name hm =>
      split at hr
      · cases hr
      · exact .method hne hm (h context c m name new hm hr)
  · cases hr

/-- What a sweep over the functions of the factory writes. -/
theorem Sweep.writes_ofStatics {names : List String}
    {f : RuleContext → Cursor → List Cursor → Check (Option Node)}
    (hne : names ≠ []) (h : ∀ context c m name o new, m.child? .object = some o →
      o.isFactoryIdentifier context.factoryNames = .ok true →
      f context c c.arguments = .ok (some new) →
      MethodForm context c m name names new) :
    (Sweep.ofStatics names f).Writes names fun context c new =>
      WrapperForm context c names new := by
  refine writes_ofMethods hne fun context c m name new _ hf => ?_
  split at hf
  · simp [pure_eq_ok] at hf
  · next o ho =>
      obtain ⟨b, hb, hf⟩ := bind_eq_ok.1 hf
      cases b with
      | false => simp [pure_eq_ok] at hf
      | true => exact h context c m name o new ho hb hf

/-- What a sweep over calls of the factory writes. -/
theorem Sweep.writes_ofFactoryCalls
    {f : RuleContext → Cursor → Cursor → Check (Option Node)}
    (h : ∀ context c arg new, c.unparen = c →
      c.isFactoryCall context.factoryNames = .ok true → c.arguments = [arg] →
      f context c arg = .ok (some new) → FactoryForm context c arg new) :
    (Sweep.ofFactoryCalls f).Writes [] fun context c new =>
      WrapperForm context c [] new := by
  refine ⟨fun hne => absurd rfl hne, fun context c new hu hr => ?_⟩
  simp only [Sweep.ofFactoryCalls] at hr
  obtain ⟨b, hb, hr⟩ := bind_eq_ok.1 hr
  cases b with
  | false => simp [pure_eq_ok] at hr
  | true =>
      obtain ⟨-, -, a, ha⟩ := Cursor.isFactoryCall_spec hb
      rw [hu] at ha
      simp only [Bool.not_true, Bool.false_eq_true, if_false, ha,
        List.head?_cons] at hr
      exact .factory hb ha (h context c a new hu hb ha hr)

theorem Rule.writes_ofSweeps {name description : String} {s : Sweep}
    {names : List String}
    (h : s.Writes names fun context c new => WrapperForm context c names new) :
    (Rule.ofSweeps name "jquery" description [s]).Writes := by
  refine .wrappers rfl rfl fun t ht => ⟨names, ?_⟩
  rw [List.mem_singleton.1 ht]
  exact h

theorem Rule.writes_ofKind {name description : String} {k : Symbol}
    {f : Cursor → Check (Option Node)}
    (h : ∀ c new, f c = .ok (some new) → IdiomForm c new) :
    (Rule.ofSweeps name "legacy" description [.ofKind k f]).Writes := by
  refine .idioms rfl rfl fun t ht => ?_
  rw [List.mem_singleton.1 ht]
  exact ⟨fun hne => absurd rfl hne, fun context c new _ hr => h c new hr⟩

namespace Rules

variable {context : RuleContext} {c m : Cursor} {name : Text} {new : Node}

/-- A rule that rewrites the receiver has found its element. -/
theorem element_eq_ok {build : Node → Node}
    (h : (receiverTarget? context m >>= fun
      | none => pure none
      | some target => pure (some (build target))) = .ok (some new)) :
    ∃ target, m.HasElement context target ∧ build target = new := by
  obtain ⟨target, ht, hnew⟩ := target_eq_ok h
  exact ⟨target, receiverTarget?_element ht, hnew⟩

-- ====================================================== display and size

theorem writes_showHide : showHide.Writes := by
  refine Rule.writes_ofSweeps (Sweep.writes_ofMethods (by simp) ?_)
  intro context c m name new hm h
  obtain ⟨-, h⟩ := unless_eq_ok.1 h
  obtain ⟨target, ht, rfl⟩ := element_eq_ok h
  exact .display ["style", "display"] (by decide) (by decide) ht

theorem writes_css : css.Writes := by
  refine Rule.writes_ofSweeps (Sweep.writes_ofMethods (by simp) ?_)
  intro context c m name new hm h
  split at h
  · obtain ⟨v, -, h⟩ := bind_eq_ok.1 h
    split at h
    · simp [pure_eq_ok] at h
    · obtain ⟨-, h⟩ := unless_eq_ok.1 h
      obtain ⟨target, ht, rfl⟩ := element_eq_ok h
      exact .computed ht
  · next n value hargs =>
      obtain ⟨v, -, h⟩ := bind_eq_ok.1 h
      split at h
      · simp [pure_eq_ok] at h
      · next t htext =>
          obtain ⟨u, -, h⟩ := bind_eq_ok.1 h
          split at h
          · simp [pure_eq_ok] at h
          · obtain ⟨-, h⟩ := unless_eq_ok.1 h
            obtain ⟨target, ht, rfl⟩ := element_eq_ok h
            refine .tell ["style"] [kebabCase t] [value] (by decide) (by decide)
              (by decide) ht ?_
            rw [hargs]
            exact List.sublist_cons_self _ _
  · simp [pure_eq_ok] at h

theorem writes_windowSize : windowSize.Writes := by
  refine Rule.writes_ofSweeps (Sweep.writes_ofMethods (by simp) ?_)
  intro context c m name new hm h
  obtain ⟨-, h⟩ := unless_eq_ok.1 h
  split at h
  · simp [pure_eq_ok] at h
  · next receiver hr =>
      obtain ⟨o, ho, rfl⟩ := Cursor.inner?_eq_some.1 hr
      obtain ⟨wrapped, hw, h⟩ := bind_eq_ok.1 h
      split at h
      · simp [pure_eq_ok] at h
      · obtain ⟨-, h⟩ := unless_eq_ok.1 h
        obtain ⟨-, h⟩ := unless_eq_ok.1 h
        obtain rfl := some_eq_of_ok h
        unfold Cursor.wrappedArgument? at hw
        obtain ⟨r, hr, hw⟩ := bind_eq_ok.1 hw
        cases r with
        | none => simp [pure_eq_ok] at hw
        | some pc => exact .size ho (wrapperCall?_cases hr).1

-- ================================================================ classes

theorem writes_addRemoveClass : addRemoveClass.Writes := by
  refine Rule.writes_ofSweeps (Sweep.writes_ofMethods (by simp) ?_)
  intro context c m name new hm h
  split at h
  · obtain ⟨-, h⟩ := unless_eq_ok.1 h
    obtain ⟨v, -, h⟩ := bind_eq_ok.1 h
    split at h
    · simp [pure_eq_ok] at h
    · next t =>
        obtain ⟨-, h⟩ := unless_eq_ok.1 h
        obtain ⟨target, ht, rfl⟩ := element_eq_ok h
        have hmethod : isSpent
            (if name == Text.ofString "addClass" then "add" else "remove") = false := by
          split <;> decide
        have hunified : ∀ t ∈ (if name == Text.ofString "addClass" then "add" else
            "remove" : Text) :: ["classList"], t.IsUnified := by
          split <;> decide
        have hform : MethodForm context c m name ["addClass", "removeClass"] _ :=
          .tell ["classList"] t.words [] (by decide) hmethod hunified ht
            (List.nil_sublist _)
        rwa [List.map_nil, List.append_nil] at hform
  · simp [pure_eq_ok] at h

theorem writes_toggleClass : toggleClass.Writes := by
  refine Rule.writes_ofSweeps (Sweep.writes_ofMethods (by simp) ?_)
  intro context c m name new hm h
  split at h
  · next arg hargs =>
      obtain ⟨-, h⟩ := unless_eq_ok.1 h
      obtain ⟨v, -, h⟩ := bind_eq_ok.1 h
      obtain ⟨-, h⟩ := unless_eq_ok.1 h
      obtain ⟨target, ht, rfl⟩ := element_eq_ok h
      exact .tell ["classList"] [] [arg]
        (by decide) (by decide) (by decide) ht (by rw [hargs])
  · simp [pure_eq_ok] at h

theorem writes_hasClass : hasClass.Writes := by
  refine Rule.writes_ofSweeps (Sweep.writes_ofMethods (by simp) ?_)
  intro context c m name new hm h
  split at h
  · next arg hargs =>
      obtain ⟨v, -, h⟩ := bind_eq_ok.1 h
      obtain ⟨-, h⟩ := unless_eq_ok.1 h
      obtain ⟨target, ht, rfl⟩ := element_eq_ok h
      exact .tell ["classList"] [] [arg]
        (by decide) (by decide) (by decide) ht (by rw [hargs])
  · simp [pure_eq_ok] at h

-- ============================================================= attributes

theorem writes_attr : attr.Writes := by
  refine Rule.writes_ofSweeps (Sweep.writes_ofMethods (by simp) ?_)
  intro context c m name new hm h
  split at h
  · next arg hargs =>
      obtain ⟨v, -, h⟩ := bind_eq_ok.1 h
      obtain ⟨-, h⟩ := unless_eq_ok.1 h
      obtain ⟨target, ht, rfl⟩ := element_eq_ok h
      exact .tell [] [] [arg]
        (by decide) (by decide) (by decide) ht (by rw [hargs])
  · next arg value hargs =>
      obtain ⟨v, -, h⟩ := bind_eq_ok.1 h
      obtain ⟨-, h⟩ := unless_eq_ok.1 h
      obtain ⟨-, h⟩ := unless_eq_ok.1 h
      obtain ⟨target, ht, rfl⟩ := element_eq_ok h
      exact .tell [] [] [arg, value]
        (by decide) (by decide) (by decide) ht (by rw [hargs])
  · simp [pure_eq_ok] at h

theorem writes_removeAttr : removeAttr.Writes := by
  refine Rule.writes_ofSweeps (Sweep.writes_ofMethods (by simp) ?_)
  intro context c m name new hm h
  split at h
  · next arg hargs =>
      obtain ⟨v, -, h⟩ := bind_eq_ok.1 h
      obtain ⟨-, h⟩ := unless_eq_ok.1 h
      obtain ⟨target, ht, rfl⟩ := element_eq_ok h
      exact .tell [] [] [arg]
        (by decide) (by decide) (by decide) ht (by rw [hargs])
  · simp [pure_eq_ok] at h

theorem isUnified_of_isPropertyName {t : Text} (h : isPropertyName t = true) :
    t.IsUnified := by
  have hclean : t.withoutFinalNewline.IsUnified := by
    unfold isPropertyName at h
    split at h
    · next p ps hps =>
        rw [Bool.and_eq_true, List.all_eq_true] at h
        rw [hps, Text.IsUnified, List.mem_cons, not_or]
        constructor
        · rintro rfl
          exact absurd h.1 (by decide)
        · exact fun hmem => absurd (h.2 _ hmem) (by set_option maxRecDepth 8000 in decide)
    · cases h
  unfold Text.withoutFinalNewline at hclean
  split at hclean
  · next hlast =>
      rw [beq_iff_eq, List.getLast?_eq_some_iff] at hlast
      obtain ⟨u, rfl⟩ := hlast
      rw [List.dropLast_concat] at hclean
      exact Text.IsUnified.append_iff.2 ⟨hclean, by decide⟩
  · exact hclean

theorem isUnified_propertySpelling {t : Text} (h : t.IsUnified) :
    (propertySpelling t).IsUnified := by
  have hall : ∀ p ∈ propertySpellings, (Text.ofString p.2).IsUnified := by decide
  unfold propertySpelling
  split
  · next v hv => exact hall _ (List.mem_of_find?_eq_some hv)
  · exact h

theorem writes_prop : prop.Writes := by
  refine Rule.writes_ofSweeps (Sweep.writes_ofMethods (by simp) ?_)
  intro context c m name new hm h
  split at h
  · simp [pure_eq_ok] at h
  · next arg rest hargs =>
      split at h
      · simp [pure_eq_ok] at h
      · obtain ⟨v, -, h⟩ := bind_eq_ok.1 h
        split at h
        · simp [pure_eq_ok] at h
        · next t htext =>
            obtain ⟨-, h⟩ := unless_eq_ok.1 h
            obtain ⟨r, hr, h⟩ := bind_eq_ok.1 h
            cases r with
            | none => simp [pure_eq_ok] at h
            | some target =>
                have ht := receiverTarget?_element hr
                have hunified := isUnified_propertySpelling
                  (isUnified_of_isPropertyName (Option.filter_eq_some_iff.1 htext).2)
                simp only at h
                split at h
                · next value =>
                    obtain rfl := some_eq_of_ok h
                    exact .write [propertySpelling t] (by decide)
                      (List.forall_mem_singleton.2 hunified) ht (by rw [hargs]; simp)
                · obtain rfl := some_eq_of_ok h
                  exact .prop hunified ht

/-- The accessors of an element have names of their own. -/
theorem isSpent_contentProperty (method : Text) :
    isSpent (contentProperty method) = false := by
  unfold contentProperty
  split
  · decide
  · split <;> decide

theorem isUnified_contentProperty (method : Text) :
    (contentProperty method).IsUnified := by
  unfold contentProperty
  split
  · decide
  · split <;> decide

theorem writes_contentAccessors : contentAccessors.Writes := by
  refine Rule.writes_ofSweeps (Sweep.writes_ofMethods (by simp) ?_)
  intro context c m name new hm h
  split at h
  · obtain ⟨target, ht, rfl⟩ := element_eq_ok h
    exact .read (by decide) (isSpent_contentProperty name)
      (isUnified_contentProperty name) ht
  · next value hargs =>
      obtain ⟨b, -, h⟩ := bind_eq_ok.1 h
      obtain ⟨-, h⟩ := unless_eq_ok.1 h
      obtain ⟨target, ht, rfl⟩ := element_eq_ok h
      exact .write [contentProperty name] (by decide)
        (List.forall_mem_singleton.2 (isUnified_contentProperty name)) ht
        (by rw [hargs]; simp)
  · simp [pure_eq_ok] at h

-- ================================================================= events

theorem writes_addListener : addListener.Writes := by
  refine Rule.writes_ofSweeps (Sweep.writes_ofMethods (by simp) ?_)
  intro context c m name new hm h
  split at h
  · next event handler hargs =>
      obtain ⟨b, -, h⟩ := bind_eq_ok.1 h
      obtain ⟨-, h⟩ := unless_eq_ok.1 h
      obtain ⟨-, h⟩ := unless_eq_ok.1 h
      obtain ⟨target, ht, rfl⟩ := element_eq_ok h
      exact .tell [] [] [event, handler]
        (by decide) (by decide) (by decide) ht (by rw [hargs])
  · simp [pure_eq_ok] at h

theorem writes_removeListener : removeListener.Writes := by
  refine Rule.writes_ofSweeps (Sweep.writes_ofMethods (by simp) ?_)
  intro context c m name new hm h
  split at h
  · next event handler hargs =>
      obtain ⟨b, -, h⟩ := bind_eq_ok.1 h
      obtain ⟨-, h⟩ := unless_eq_ok.1 h
      obtain ⟨-, h⟩ := unless_eq_ok.1 h
      obtain ⟨-, h⟩ := unless_eq_ok.1 h
      obtain ⟨target, ht, rfl⟩ := element_eq_ok h
      exact .tell [] [] [event, handler]
        (by decide) (by decide) (by decide) ht (by rw [hargs])
  · simp [pure_eq_ok] at h

theorem writes_trigger : trigger.Writes := by
  refine Rule.writes_ofSweeps (Sweep.writes_ofMethods (by simp) ?_)
  intro context c m name new hm h
  split at h
  · next event hargs =>
      obtain ⟨b, -, h⟩ := bind_eq_ok.1 h
      obtain ⟨-, h⟩ := unless_eq_ok.1 h
      obtain ⟨-, h⟩ := unless_eq_ok.1 h
      obtain ⟨target, ht, rfl⟩ := element_eq_ok h
      exact .dispatch ht hargs
  · simp [pure_eq_ok] at h

theorem writes_readyCalls : readyCalls.Writes ["ready"]
    fun context c new => WrapperForm context c ["ready"] new := by
  refine Sweep.writes_ofMethods (by simp) ?_
  intro context c m name new hm h
  split at h
  · next handler receiver hargs hreceiver =>
      obtain ⟨o, ho, rfl⟩ := Cursor.inner?_eq_some.1 hreceiver
      obtain ⟨-, h⟩ := unless_eq_ok.1 h
      split at h
      · simp [pure_eq_ok] at h
      · obtain ⟨-, h⟩ := unless_eq_ok.1 h
        obtain ⟨b, hf, h⟩ := bind_eq_ok.1 h
        cases b with
        | false => simp [pure_eq_ok] at h
        | true =>
            simp only [Bool.not_true, Bool.false_eq_true, if_false] at h
            split at h
            · simp [pure_eq_ok] at h
            · obtain ⟨-, h⟩ := unless_eq_ok.1 h
              obtain ⟨-, h⟩ := unless_eq_ok.1 h
              obtain rfl := some_eq_of_ok h
              exact .loaded ho hf hargs
  · simp [pure_eq_ok] at h

theorem writes_readyShorthand : readyShorthand.Writes []
    fun context c new => WrapperForm context c [] new := by
  refine ⟨fun hne => absurd rfl hne, fun context c new hu hr => ?_⟩
  simp only [readyShorthand] at hr
  obtain ⟨b, hf, hr⟩ := bind_eq_ok.1 hr
  cases b with
  | false => simp [pure_eq_ok] at hr
  | true =>
      obtain ⟨-, -, a, ha⟩ := Cursor.isFactoryCall_spec hf
      rw [hu] at ha
      simp only [Bool.not_true, Bool.false_eq_true, if_false, ha,
        List.head?_cons] at hr
      obtain ⟨hv, hr⟩ := unless_eq_ok.1 hr
      obtain ⟨hglobal, hr⟩ := unless_eq_ok.1 hr
      obtain ⟨b, -, hr⟩ := bind_eq_ok.1 hr
      split at hr
      · obtain rfl := some_eq_of_ok hr
        simp only [Bool.or_eq_false_iff, Bool.not_eq_false'] at hv hglobal
        exact .factory hf ha (.loaded hv.1 hglobal.2)
      · simp [pure_eq_ok] at hr

theorem writes_ready : ready.Writes := by
  refine .wrappers rfl rfl fun s hs => ?_
  simp only [List.mem_cons, List.not_mem_nil, or_false] at hs
  rcases hs with rfl | rfl
  · exact ⟨_, writes_readyCalls⟩
  · exact ⟨_, writes_readyShorthand⟩

-- ============================================================== traversal

/-- A native selector is a string whose value is known. -/
theorem stringValue_of_nativeSelector? {v : Option Text} (h : c.nativeSelector? = .ok v)
    (hv : v.isSome = true) : ∃ t, c.node.stringValue = .ok (some t) := by
  unfold Cursor.nativeSelector? at h
  obtain ⟨u, hu, h⟩ := bind_eq_ok.1 h
  rw [pure_eq_ok] at h
  cases u with
  | none =>
      subst h
      cases hv
  | some t => exact ⟨t, hu⟩

/-- The name of the factory that a rule writes again is the one that made
the wrapper. -/
theorem hasFactory_of_factoryNameFor? {factory : Text}
    (h : factoryNameFor? context m = .ok (some factory)) :
    m.HasFactory context factory := by
  unfold factoryNameFor? at h
  split at h
  · simp [pure_eq_ok] at h
  · next receiver hr =>
      obtain ⟨o, ho, rfl⟩ := Cursor.inner?_eq_some.1 hr
      obtain ⟨w, hw, h⟩ := bind_eq_ok.1 h
      cases w with
      | none => simp [pure_eq_ok] at h
      | some pc =>
          obtain ⟨p, call⟩ := pc
          simp only at h
          split at h
          · simp [pure_eq_ok] at h
          · next callee hcallee =>
              split at h
              · simp [pure_eq_ok] at h
              · split at h
                · simp only [pure_eq_ok, Option.some.injEq] at h
                  subst h
                  have hwrap := (wrapperCall?_cases hw).1
                  obtain ⟨f, hf, hmem⟩ := hwrap.callee
                  rw [hcallee] at hf
                  obtain rfl := Option.some.inj hf
                  exact ⟨hmem, o, call, callee, ho, hwrap, hcallee, rfl⟩
                · simp [pure_eq_ok] at h

theorem rewrapped_eq_ok {build : Node → Node}
    (h : rewrapped context m build = .ok (some new)) :
    ∃ factory target, m.HasFactory context factory
      ∧ receiverTarget? context m = .ok (some target)
      ∧ rewrap factory (build target) = new := by
  unfold rewrapped at h
  obtain ⟨factory, hf, h⟩ := bind_eq_ok.1 h
  cases factory with
  | none => simp [pure_eq_ok] at h
  | some factory =>
      obtain ⟨target, ht, hnew⟩ := target_eq_ok h
      exact ⟨factory, target, hasFactory_of_factoryNameFor? hf, ht, hnew⟩

theorem isUnified_neighbourProperty (method : Text) :
    (neighbourProperty method).IsUnified := by
  unfold neighbourProperty
  split
  · decide
  · split
    · decide
    · split <;> decide

theorem writes_neighbours : neighbours.Writes := by
  refine Rule.writes_ofSweeps (Sweep.writes_ofMethods (by simp) ?_)
  intro context c m name new hm h
  obtain ⟨-, h⟩ := unless_eq_ok.1 h
  obtain ⟨factory, target, hf, ht, rfl⟩ := rewrapped_eq_ok h
  exact .neighbour hf (isUnified_neighbourProperty name) (receiverTarget?_element ht)

theorem writes_closest : closest.Writes := by
  refine Rule.writes_ofSweeps (Sweep.writes_ofMethods (by simp) ?_)
  intro context c m name new hm h
  split at h
  · next selector hargs =>
      obtain ⟨v, hv, h⟩ := bind_eq_ok.1 h
      obtain ⟨hsome, h⟩ := unless_eq_ok.1 h
      obtain ⟨factory, target, hf, ht, rfl⟩ := rewrapped_eq_ok h
      obtain ⟨t, ht'⟩ := stringValue_of_nativeSelector? hv
        (by simpa [Option.isNone_iff_eq_none, ← Option.isSome_iff_ne_none] using hsome)
      exact .closest hf (receiverTarget?_element ht) hargs ht'
  · simp [pure_eq_ok] at h

theorem writes_find : find.Writes := by
  refine Rule.writes_ofSweeps (Sweep.writes_ofMethods (by simp) ?_)
  intro context c m name new hm h
  split at h
  · next selector hargs =>
      obtain ⟨v, -, h⟩ := bind_eq_ok.1 h
      split at h
      · simp [pure_eq_ok] at h
      · obtain ⟨factory, target, hf, ht, rfl⟩ := rewrapped_eq_ok h
        exact .found hf (receiverTarget?_element ht) hargs
  · simp [pure_eq_ok] at h

/-- A name or `this` is no string. -/
theorem stringValue_of_reference {n : Node}
    (h : n.strip.isAny [.identifier, .thisExpr] = true) : n.stringValue = .ok none := by
  have hno : n.isAny [.string, .templateString] = false := by
    rw [Bool.eq_false_iff]
    intro hk
    obtain ⟨s, hs, hkind⟩ := Node.isAny_iff.1 hk
    have hself : n.strip = n := Node.strip_of_no_operand fun hp => by
      rw [Node.is_iff, hkind] at hp
      cases hp
      simp at hs
    rw [hself] at h
    obtain ⟨t, ht, hkind'⟩ := Node.isAny_iff.1 h
    rw [hkind] at hkind'
    cases hkind'
    simp only [List.mem_cons, List.not_mem_nil, or_false] at hs ht
    rcases hs with rfl | rfl <;> simp at ht
  rw [Node.stringValue, hno]
  rfl

/-- Where the wrapped argument is a name or `this`, so is the element that a
rule finds behind a receiver. -/
theorem receiverTarget?_repeatable {target : Node}
    (h : receiverTarget? context m = .ok (some target))
    (hrep : isRepeatable context m = .ok true) :
    target.strip.isAny [.identifier, .thisExpr] = true := by
  unfold isRepeatable at hrep
  unfold receiverTarget? at h
  cases hr : m.inner? .object with
  | none => simp [hr, pure_eq_ok] at h
  | some receiver =>
      simp only [hr] at h hrep
      obtain ⟨w, hw, h⟩ := bind_eq_ok.1 h
      obtain ⟨wrapped, hwrapped, hrep⟩ := bind_eq_ok.1 hrep
      cases w with
      | none => simp [pure_eq_ok] at h
      | some pc =>
          obtain ⟨p, call⟩ := pc
          obtain ⟨a, ha⟩ := (wrapperCall?_cases hw).1.arguments
          obtain rfl : wrapped = some a := by
            unfold Cursor.wrappedArgument? at hwrapped
            rw [hw] at hwrapped
            have hsome : (pure call.arguments.head? : Check _) = .ok wrapped := hwrapped
            rw [ha, pure_eq_ok] at hsome
            exact hsome.symm
          have hident : a.node.strip.isAny [.identifier, .thisExpr] = true := by
            simp only at hrep
            split at hrep
            · simp [pure_eq_ok] at hrep
            · next hno =>
                simp only [Bool.or_eq_true, Bool.not_eq_true', not_or,
                  Bool.not_eq_false] at hno
                rw [← Cursor.node_unparen]
                exact hno.1
          have hid : a.idSelector? = .ok none := by
            rw [Cursor.idSelector?, stringValue_of_reference hident]
            rfl
          simp only [ha, List.head?_cons] at h
          obtain ⟨id, hid', h⟩ := bind_eq_ok.1 h
          rw [hid] at hid'
          obtain rfl := Except.ok.inj hid'
          have htarget : receiver.wrapperTarget? context.factoryNames
              = .ok (some target) := by
            simp only [Option.isSome_none, Bool.false_eq_true, if_false] at h
            obtain ⟨-, h⟩ := unless_eq_ok.1 h
            split at h
            · obtain ⟨b, -, h⟩ := bind_eq_ok.1 h
              obtain ⟨-, h⟩ := unless_eq_ok.1 h
              exact h
            · exact h
          unfold Cursor.wrapperTarget? at htarget
          obtain ⟨w, hw', htarget⟩ := bind_eq_ok.1 htarget
          rw [hw] at hw'
          obtain rfl := Except.ok.inj hw'
          simp only [ha, List.head?_cons] at htarget
          split at htarget
          · obtain rfl := some_eq_of_ok htarget
            exact hident
          · obtain ⟨b, -, htarget⟩ := bind_eq_ok.1 htarget
            cases b with
            | false => simp [pure_eq_ok] at htarget
            | true =>
                obtain rfl := some_eq_of_ok htarget
                rw [Node.strip_copy]
                exact (List.any_congr rfl fun s => Node.is_copy _ s).trans hident

theorem writes_siblings : siblings.Writes := by
  refine Rule.writes_ofSweeps (Sweep.writes_ofMethods (by simp) ?_)
  intro context c m name new hm h
  split at h
  · simp [pure_eq_ok] at h
  · next hlen =>
      obtain ⟨b, hb, h⟩ := bind_eq_ok.1 h
      obtain ⟨hb', h⟩ := unless_eq_ok.1 h
      obtain ⟨-, h⟩ := unless_eq_ok.1 h
      obtain ⟨b', hrep, h⟩ := bind_eq_ok.1 h
      obtain ⟨hrep', h⟩ := unless_eq_ok.1 h
      obtain ⟨factory, target, hf, ht, rfl⟩ := rewrapped_eq_ok h
      obtain rfl : b = true := by simpa using hb'
      obtain rfl : b' = true := by simpa using hrep'
      refine .siblings hf (receiverTarget?_element ht) (by omega) ?_
        (receiverTarget?_repeatable ht hrep)
      match hargs : c.arguments with
      | [] => exact List.forall_mem_nil _
      | [a] =>
          rw [hargs] at hb
          simp only [List.head?_cons, isSiblingSelector] at hb
          obtain ⟨v, hv, hb⟩ := bind_eq_ok.1 hb
          rw [pure_eq_ok] at hb
          rw [List.forall_mem_singleton]
          refine stringValue_of_nativeSelector? hv ?_
          cases v with
          | none => cases hb
          | some v => rfl
      | _ :: _ :: _ => simp [hargs] at hlen

-- ============================================================== insertion

theorem writes_removeAndEmpty : removeAndEmpty.Writes := by
  refine Rule.writes_ofSweeps (Sweep.writes_ofMethods (by simp) ?_)
  intro context c m name new hm h
  obtain ⟨hargs, h⟩ := unless_eq_ok.1 h
  obtain ⟨target, ht, rfl⟩ := element_eq_ok h
  have hnil : c.arguments = [] := by
    simp only [Bool.or_eq_false_iff, Bool.not_eq_false', List.isEmpty_iff] at hargs
    exact hargs.1
  by_cases hname : name = Text.ofString "remove"
  · rw [if_pos (by simpa using hname)]
    exact .remove hname ht hnil
  · rw [if_neg (by simpa using hname)]
    exact .empty hname ht hnil

theorem writes_insertion : insertion.Writes := by
  refine Rule.writes_ofSweeps (Sweep.writes_ofMethods (by simp) ?_)
  intro context c m name new hm h
  split at h
  · next arg hargs =>
      obtain ⟨-, h⟩ := unless_eq_ok.1 h
      obtain ⟨target, ht, rfl⟩ := element_eq_ok h
      exact .insert ht hargs
  · simp [pure_eq_ok] at h

-- ============================================= functions of the factory

theorem writes_each : each.Writes := by
  refine Rule.writes_ofSweeps (Sweep.writes_ofStatics (by simp) ?_)
  intro context c m name o new ho hf h
  split at h
  · next array callback hargs =>
      obtain ⟨-, h⟩ := unless_eq_ok.1 h
      obtain ⟨-, h⟩ := unless_eq_ok.1 h
      split at h
      · obtain rfl := some_eq_of_ok h
        exact .each ho hf hargs (Or.inl rfl)
      · next index value hp =>
          obtain rfl := some_eq_of_ok h
          exact .each ho hf hargs (Or.inr ⟨index, value, hp, rfl⟩)
      · simp [pure_eq_ok] at h
  · simp [pure_eq_ok] at h

theorem writes_grep : grep.Writes := by
  refine Rule.writes_ofSweeps (Sweep.writes_ofStatics (by simp) ?_)
  intro context c m name o new ho hf h
  split at h
  · next array callback hargs =>
      obtain ⟨-, h⟩ := unless_eq_ok.1 h
      obtain ⟨-, h⟩ := unless_eq_ok.1 h
      obtain rfl := some_eq_of_ok h
      exact .grep ho hf hargs
  · simp [pure_eq_ok] at h

theorem writes_map : map.Writes := by
  refine Rule.writes_ofSweeps (Sweep.writes_ofStatics (by simp) ?_)
  intro context c m name o new ho hf h
  split at h
  · next array callback hargs =>
      obtain ⟨harray, h⟩ := unless_eq_ok.1 h
      obtain ⟨-, h⟩ := unless_eq_ok.1 h
      obtain ⟨-, h⟩ := unless_eq_ok.1 h
      obtain rfl := some_eq_of_ok h
      simp only [Bool.or_eq_false_iff, Bool.not_eq_false'] at harray
      exact .map ho hf hargs harray.1
  · simp [pure_eq_ok] at h

theorem writes_trim : trim.Writes := by
  refine Rule.writes_ofSweeps (Sweep.writes_ofStatics (by simp) ?_)
  intro context c m name o new ho hf h
  split at h
  · next text hargs =>
      obtain ⟨hstring, h⟩ := unless_eq_ok.1 h
      obtain rfl := some_eq_of_ok h
      exact .trim ho hf hargs (by simpa using hstring)
  · simp [pure_eq_ok] at h

theorem writes_inArray : inArray.Writes := by
  refine @Rule.writes_ofSweeps _ _ _ []
    ⟨fun hne => absurd rfl hne, fun context c new _ h => ?_⟩
  simp only at h
  obtain ⟨r, hr, h⟩ := bind_eq_ok.1 h
  split at h
  · simp [pure_eq_ok] at h
  · next call negated =>
      obtain ⟨other, k, hcmp, hidx, hint⟩ := presenceCheck_spec hr
      obtain ⟨hck, m, o, value, array, hm, ho, hfactory, hargs⟩ :=
        isInArrayCall_spec hidx
      rw [hargs] at h
      obtain rfl := some_eq_of_ok h
      exact .inArray hcmp hck hm ho hfactory hargs

-- ================================================== calls of the factory

theorem writes_byId : byId.Writes := by
  refine Rule.writes_ofSweeps (Sweep.writes_ofFactoryCalls ?_)
  intro context c arg new hu hf ha h
  obtain ⟨id?, hid, h⟩ := bind_eq_ok.1 h
  split at h
  · simp [pure_eq_ok] at h
  · obtain ⟨hglobal, h⟩ := unless_eq_ok.1 h
    obtain ⟨b, -, h⟩ := bind_eq_ok.1 h
    split at h
    · obtain rfl := some_eq_of_ok h
      exact .byId hid (by simpa using hglobal)
    · simp [pure_eq_ok] at h

theorem writes_byClass : byClass.Writes := by
  refine Rule.writes_ofSweeps (Sweep.writes_ofFactoryCalls ?_)
  intro context c arg new hu hf ha h
  obtain ⟨v, hv, h⟩ := bind_eq_ok.1 h
  split at h
  · simp [pure_eq_ok] at h
  · next t htext =>
      obtain ⟨hglobal, h⟩ := unless_eq_ok.1 h
      obtain ⟨b, -, h⟩ := bind_eq_ok.1 h
      split at h
      · obtain rfl := some_eq_of_ok h
        rw [filter_eq_some htext] at hv
        exact .byClass hv (by simpa using hglobal)
      · simp [pure_eq_ok] at h

theorem writes_unwrapElement : unwrapElement.Writes := by
  refine Rule.writes_ofSweeps (Sweep.writes_ofFactoryCalls ?_)
  intro context c arg new hu hf ha h
  obtain ⟨helement, h⟩ := unless_eq_ok.1 h
  obtain ⟨hchain, h⟩ := unless_eq_ok.1 h
  obtain ⟨b, -, h⟩ := bind_eq_ok.1 h
  obtain ⟨-, h⟩ := unless_eq_ok.1 h
  -- the call is its own wrapper, so its argument takes its place
  unfold Cursor.wrapperTarget? at h
  rw [wrapperCall?_of_isFactoryCall hf, hu] at h
  obtain ⟨r, hr, h⟩ := bind_eq_ok.1 h
  obtain rfl := Except.ok.inj hr
  simp only [ha, List.head?_cons, beq_self_eq_true, if_true] at h
  obtain rfl := some_eq_of_ok h
  exact .unwrap (by simpa using helement) (by simpa using hchain)

theorem writes_eachElement : eachElement.Writes := by
  refine Rule.writes_ofSweeps (Sweep.writes_ofMethods (by simp) ?_)
  intro context c m name new hm h
  split at h
  · next callback receiver hargs hreceiver =>
      obtain ⟨o, ho, rfl⟩ := Cursor.inner?_eq_some.1 hreceiver
      obtain ⟨-, h⟩ := unless_eq_ok.1 h
      obtain ⟨b, hf, h⟩ := bind_eq_ok.1 h
      cases b with
      | false => simp [pure_eq_ok] at h
      | true =>
          obtain ⟨-, -, a, ha⟩ := Cursor.isFactoryCall_spec hf
          rw [Cursor.unparen_unparen] at ha
          simp only [Bool.not_true, Bool.false_eq_true, if_false, ha,
            List.head?_cons] at h
          obtain ⟨v, hv, h⟩ := bind_eq_ok.1 h
          split at h
          · simp [pure_eq_ok] at h
          · obtain ⟨-, h⟩ := unless_eq_ok.1 h
            obtain ⟨b, -, h⟩ := bind_eq_ok.1 h
            obtain ⟨-, h⟩ := unless_eq_ok.1 h
            split at h
            · simp [pure_eq_ok] at h
            · next params hparams =>
                obtain rfl := some_eq_of_ok h
                exact .visit ho hf ha hargs
                  (simpleParameters?_of_visitorParameters? hparams)
  · simp [pure_eq_ok] at h

-- ============================================================ old idioms

theorem writes_power : power.Writes := by
  refine Rule.writes_ofKind fun c new h => ?_
  split at h
  · simp [pure_eq_ok] at h
  · next m name hm =>
      obtain ⟨hname, h⟩ := unless_eq_ok.1 h
      obtain ⟨-, h⟩ := unless_eq_ok.1 h
      split at h
      · next base exponent hargs =>
          obtain rfl := some_eq_of_ok h
          simp only [Bool.or_eq_false_iff, bne_eq_false_iff_eq] at hname
          obtain rfl := hname.1.1
          exact .power hm hargs
      · simp [pure_eq_ok] at h

/-- The rules for older idioms take out the methods that they look
for. -/
theorem isSpent_of_isOneOf {w : String} (h : name.isOneOf [w] = true)
    (hw : w ∈ spentMethods) : isSpent name = true := by
  obtain rfl : Text.ofString w = name := by simpa [Text.isOneOf] using h
  rw [isSpent, Text.isOneOf, List.any_eq_true]
  exact ⟨w, hw, beq_self_eq_true _⟩

/-- A number is written in digits. -/
theorem isUnified_writeNumber {n : Int} {t : Text} (h : writeNumber n = .ok t) :
    t.IsUnified := by
  have hdigits : ∀ m : Nat, '\r' ∉ m.repr.toList := by
    intro m hmem
    rw [Nat.toList_repr] at hmem
    exact absurd (Nat.isDigit_of_mem_toDigits (by decide) (by decide) hmem) (by decide)
  unfold writeNumber at h
  split at h
  · obtain rfl := Except.ok.inj h
    refine Text.IsUnified.ofChars_iff.2 ?_
    cases n with
    | ofNat m => exact hdigits m
    | negSucc m =>
        rw [Int.toString_eq_repr, Int.repr, String.toList_append, List.mem_append, not_or]
        exact ⟨by decide, hdigits m.succ⟩
  · cases h

theorem writes_substr : substr.Writes := by
  refine Rule.writes_ofKind fun c new h => ?_
  split at h
  · simp [pure_eq_ok] at h
  · next receiver hr =>
      obtain ⟨-, m, name, o, hm, hone, ho, rfl⟩ := Cursor.methodReceiver?_eq_some hr
      have hname := isSpent_of_isOneOf hone (by decide)
      obtain ⟨-, h⟩ := unless_eq_ok.1 h
      split at h
      · obtain rfl := some_eq_of_ok h
        exact .slice [] [] hm hname (List.forall_mem_nil _) ho (List.nil_sublist _)
      · next start hargs =>
          obtain rfl := some_eq_of_ok h
          exact .slice [] [start] hm hname (List.forall_mem_nil _) ho (by rw [hargs])
      · obtain ⟨a, ha, h⟩ := bind_eq_ok.1 h
        obtain ⟨b, hb, h⟩ := bind_eq_ok.1 h
        split at h
        · split at h
          · simp [pure_eq_ok] at h
          · obtain ⟨x, hx, h⟩ := bind_eq_ok.1 h
            obtain ⟨y, hy, h⟩ := bind_eq_ok.1 h
            obtain rfl := some_eq_of_ok h
            have hnumbers : ∀ t ∈ [x, y], t.IsUnified := by
              simpa using ⟨isUnified_writeNumber hx, isUnified_writeNumber hy⟩
            exact .slice [x, y] [] hm hname hnumbers ho (List.nil_sublist _)
        · simp [pure_eq_ok] at h
      · simp [pure_eq_ok] at h

theorem writes_arrayFrom : arrayFrom.Writes := by
  refine Rule.writes_ofKind fun c new h => ?_
  split at h
  · next receiver arg hr hargs =>
      obtain ⟨-, m, name, o, hm, hone, ho, rfl⟩ := Cursor.methodReceiver?_eq_some hr
      obtain ⟨-, h⟩ := unless_eq_ok.1 h
      obtain ⟨-, h⟩ := unless_eq_ok.1 h
      obtain rfl := some_eq_of_ok h
      exact .spread hm (isSpent_of_isOneOf hone (by decide)) hargs
  · simp [pure_eq_ok] at h

theorem writes_includes : includes.Writes := by
  refine Rule.writes_ofKind fun c new h => ?_
  obtain ⟨r, hr, h⟩ := bind_eq_ok.1 h
  split at h
  · simp [pure_eq_ok] at h
  · next call negated =>
      obtain ⟨other, k, hcmp, hidx, hint⟩ := presenceCheck_spec hr
      obtain ⟨r, arg, hrecv, hargs⟩ := isIndexOfCall_spec (pure_eq_ok.1 hidx)
      obtain ⟨hck, m, name, o, hm, hone, ho, -⟩ :=
        Cursor.methodReceiver?_eq_some hrecv
      rw [(Cursor.calledMember?_eq_some hm).1, Option.bind_some, ho, hargs] at h
      obtain rfl := some_eq_of_ok h
      exact .test hcmp hck hm (isSpent_of_isOneOf hone (by decide)) (by decide)
        (by decide) ho (Or.inl rfl) hargs

theorem writes_startsWithIndex : startsWithIndex.Writes := by
  refine Rule.writes_ofKind fun c new h => ?_
  obtain ⟨r, hr, h⟩ := bind_eq_ok.1 h
  split at h
  · simp [pure_eq_ok] at h
  · next call other negated =>
      obtain ⟨hcmp, hidx⟩ := equalityCheck_spec hr
      obtain ⟨k, -, h⟩ := bind_eq_ok.1 h
      obtain ⟨-, h⟩ := unless_eq_ok.1 h
      obtain ⟨r, arg, hrecv, hargs⟩ := isStringIndexOfCall_spec (pure_eq_ok.1 hidx)
      rw [hrecv, hargs] at h
      obtain rfl := some_eq_of_ok h
      obtain ⟨hck, m, name, o, hm, hone, ho, rfl⟩ :=
        Cursor.methodReceiver?_eq_some hrecv
      exact .test hcmp hck hm (isSpent_of_isOneOf hone (by decide)) (by decide)
        (by decide) ho (Or.inr rfl) hargs

theorem writes_startsWithPart : startsWithPart.Writes := by
  refine Rule.writes_ofKind fun c new h => ?_
  obtain ⟨r, hr, h⟩ := bind_eq_ok.1 h
  split at h
  · simp [pure_eq_ok] at h
  · next call start negated =>
      obtain ⟨hcmp, hidx⟩ := equalityCheck_spec hr
      obtain ⟨r, first, finish, hrecv, hargs, -⟩ := isStartCall_spec hidx
      rw [hargs, hrecv] at h
      obtain ⟨b, -, h⟩ := bind_eq_ok.1 h
      obtain ⟨-, h⟩ := unless_eq_ok.1 h
      obtain rfl := some_eq_of_ok h
      obtain ⟨hck, m, name, o, hm, hone, ho, rfl⟩ :=
        Cursor.methodReceiver?_eq_some hrecv
      exact .start hcmp hck hm (isSpent_of_isOneOf hone (by decide)) ho

end Rules

/-- What every built-in rule writes. -/
theorem Rule.writes_of_mem {rule : Rule} (h : rule ∈ Registry.builtin.rules) :
    rule.Writes := by
  simp only [Registry.builtin, List.mem_cons, List.not_mem_nil, or_false] at h
  rcases h with rfl | rfl | rfl | rfl | rfl | rfl | rfl | rfl | rfl | rfl | rfl
    | rfl | rfl | rfl | rfl | rfl | rfl | rfl | rfl | rfl | rfl | rfl | rfl | rfl
    | rfl | rfl | rfl | rfl | rfl | rfl | rfl | rfl | rfl | rfl | rfl | rfl
  · exact Rules.writes_showHide
  · exact Rules.writes_css
  · exact Rules.writes_windowSize
  · exact Rules.writes_addRemoveClass
  · exact Rules.writes_toggleClass
  · exact Rules.writes_hasClass
  · exact Rules.writes_attr
  · exact Rules.writes_removeAttr
  · exact Rules.writes_prop
  · exact Rules.writes_contentAccessors
  · exact Rules.writes_addListener
  · exact Rules.writes_removeListener
  · exact Rules.writes_trigger
  · exact Rules.writes_ready
  · exact Rules.writes_neighbours
  · exact Rules.writes_closest
  · exact Rules.writes_find
  · exact Rules.writes_siblings
  · exact Rules.writes_removeAndEmpty
  · exact Rules.writes_insertion
  · exact Rules.writes_each
  · exact Rules.writes_grep
  · exact Rules.writes_map
  · exact Rules.writes_trim
  · exact Rules.writes_inArray
  · exact Rules.writes_byId
  · exact Rules.writes_byClass
  · exact Rules.writes_eachElement
  · exact Rules.writes_unwrapElement
  · exact Rules.writes_power
  · exact Rules.writes_substr
  · exact Rules.writes_includes
  · exact Rules.writes_startsWithIndex
  · exact Rules.writes_startsWithPart
  · exact Rules.writes_arrayFrom
  · exact .directives rfl

/-- What a built-in rule puts in the place of an expression. -/
theorem Step.form {rule : Rule} (h : rule ∈ Registry.builtin.rules) {sweeps : List Sweep}
    (haction : rule.action = .sweeps sweeps) {s : Sweep} (hs : s ∈ sweeps)
    {context : RuleContext} {k : Symbol} {w : Workspace} {r : Rewrite} {p : Cursor}
    (hstep : Step context.factoryNames k w r p)
    (hr : s.replacement context r.site = .ok (some r.new)) :
    (rule.group = "jquery" ∧ ∃ names, WrapperForm context r.site names r.new)
      ∨ (rule.group = "legacy" ∧ IdiomForm r.site r.new) := by
  cases Rule.writes_of_mem h with
  | wrappers hg haction' hwrites =>
      obtain rfl : sweeps = _ := RuleAction.sweeps.inj (haction.symm.trans haction')
      obtain ⟨names, hnames⟩ := hwrites s hs
      exact Or.inl ⟨hg, names, hnames.written context r.site r.new hstep.unparen_site hr⟩
  | idioms hg haction' hwrites =>
      obtain rfl : sweeps = _ := RuleAction.sweeps.inj (haction.symm.trans haction')
      exact Or.inr ⟨hg, (hwrites s hs).written context r.site r.new hstep.unparen_site hr⟩
  | directives hd =>
      subst hd
      cases haction

end Codemod
