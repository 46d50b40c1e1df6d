/-
Rewrites spend what a program is worth.

A rewrite puts nothing in the program that is worth more than what it
takes out, and if the method that it takes out is a spent one, the program
is worth less afterwards (`MethodForm.spends`, `IdiomForm.spends`): what is
new in the replacement calls no such method, except for the `from` that a
call of `siblings` turns into.
-/
import Codemod.Proofs.Rule.Called
import Codemod.Proofs.Rule.Worth
import Codemod.Proofs.Wrapper.Element

namespace Codemod

open Cursor Node

-- ============================================================ references

/-- The kinds of expression that denote elements. -/
def elementSymbols : List Symbol :=
  [.thisExpr, .identifier, .memberExpression, .subscriptExpression, .callExpression]

/-- What may denote an element is no literal. -/
theorem Node.isLiteral_of_isAny {n : Node} (h : n.isAny elementSymbols = true) :
    n.isLiteral = .ok false := by
  obtain ⟨s, hs, hk⟩ := List.any_eq_true.1 h
  have hplain : ∀ s ∈ elementSymbols, s ∉ [Symbol.number, .trueLit, .falseLit,
      .nullLit, .undefinedLit] ∧ s ∉ [Symbol.string, .templateString] := by decide
  rw [isLiteral, isAny_false_of_kind hk (hplain s hs).1, if_neg Bool.false_ne_true,
    isStringLiteral, stringValue, isAny_false_of_kind hk (hplain s hs).2]
  rfl

namespace Cursor

variable {c use : Cursor} {fuel : Nat}

theorem isAny_of_isElementWithin (h : isElementWithin fuel c = true) :
    c.unparen.isAny elementSymbols = true := by
  have hany : ∀ s ∈ elementSymbols, c.unparen.is s = true →
      c.unparen.isAny elementSymbols = true := fun s hs hk =>
    List.any_eq_true.2 ⟨s, hs, hk⟩
  cases fuel with
  | zero => cases h
  | succ fuel =>
      rw [isElementWithin] at h
      by_cases hthis : c.unparen.is .thisExpr = true
      · exact hany _ (by decide) hthis
      by_cases hname : c.unparen.is .identifier = true
      · exact hany _ (by decide) hname
      by_cases hmember : c.unparen.is .memberExpression = true
      · exact hany _ (by decide) hmember
      by_cases hsub : c.unparen.is .subscriptExpression = true
      · exact hany _ (by decide) hsub
      by_cases hcall : c.unparen.is .callExpression = true
      · exact hany _ (by decide) hcall
      simp [hthis, hname, hmember, hsub, hcall] at h

theorem isLiteral_of_isElementWithin (h : isElementWithin fuel c = true) :
    c.unparen.node.isLiteral = .ok false :=
  isLiteral_of_isAny (isAny_of_isElementWithin h)

/-- An element that can be copied is a name or `this`. -/
theorem isReference_of_isStableAt (h : isElementWithin fuel c = true)
    (hs : c.isStableAt use = .ok true) : c.node.isReference = true := by
  have hkind : c.unparen.is .identifier = true ∨ c.unparen.is .thisExpr = true := by
    unfold isStableAt at hs
    simp only [isLiteral_of_isElementWithin h] at hs
    by_cases hthis : c.unparen.is .thisExpr = true
    · exact Or.inr hthis
    by_cases hname : c.unparen.is .identifier = true
    · exact Or.inl hname
    simp [hthis, hname, bind, Except.bind, pure, Except.pure] at hs
  rw [isReference, ← node_unparen]
  exact List.any_eq_true.2 (hkind.elim (fun hk => ⟨_, by decide, hk⟩)
    fun hk => ⟨_, by decide, hk⟩)

end Cursor

namespace Node

variable {n : Node}

theorem strip_mem_walk (n : Node) : n.strip ∈ n.walk := by
  have hmem := node_mem_walk (unparen_mem_walk (top n))
  rwa [node_unparen] at hmem

theorem worth_of_isReference (hs : n.Shaped) (h : n.isReference = true) : n.worth = 0 := by
  rw [← worth_strip hs]
  refine worth_children_nil ((hs.of_mem_walk (strip_mem_walk n)).formed.plain ?_)
  obtain ⟨s, hs, hk⟩ := List.any_eq_true.1 h
  have hatom : ∀ s ∈ [Symbol.identifier, .thisExpr], s ∈ atomSymbols := by decide
  rw [isAtom, Bool.or_eq_true]
  exact Or.inr (List.any_eq_true.2 ⟨s, hatom s hs, hk⟩)

end Node

-- ============================================================== callbacks

namespace Node

variable {n new : Node} {i : Nat} {f : Node → Node → Node} {p : Place}

/-- Nothing is worth more when a part of it is replaced by something that
is worth no more. -/
theorem tally_price_substitute_le (hn : n.id ≠ some i)
    (hrole : ∀ q, ∀ d ∈ n.walk, d.id = some i → (f q d).role = d.role)
    (hf : ∀ q, ∀ d ∈ n.walk, d.id = some i →
      ∀ p, (f q d).tally price p ≤ d.tally price p) :
    (n.substitute i f).tally price p ≤ n.tally price p := by
  induction n using Node.ind generalizing p with
  | h n ih =>
      have hhead : (n.substitute i f).head = n.head := by
        rw [substitute_eq]
        rfl
      rw [tally_eq, tally_eq, Place.weigh_price_declared, Place.weigh_price_declared, hhead,
        substitute_eq]
      refine Nat.add_le_add_right ?_ _
      simp only [List.map_map]
      refine List.sum_le_sum fun c hc => ?_
      have hwalk := mem_walk_of_child hc (self_mem_walk c)
      rw [Function.comp_apply]
      unfold substituteChild
      split
      · next hid =>
          have hid : c.id = some i := by simpa using hid
          rw [hrole n c hwalk hid]
          exact hf n c hwalk hid _
      · next hid =>
          have hrole' : (c.substitute i f).role = c.role := by rw [substitute_eq]
          rw [hrole']
          exact ih c hc (by simpa using hid)
            (fun q d hd => hrole q d (mem_walk_of_child hc hd))
            (fun q d hd => hf q d (mem_walk_of_child hc hd))

theorem tally_price_replacing_le {whole : Node} {old : Cursor}
    (hne : old.node.id.isSome → whole.id ≠ old.node.id) (hwhole : new.IsWhole)
    (hnew : ∀ p, new.tally price p = 0) :
    (whole.replacing old new).tally price p ≤ whole.tally price p := by
  unfold replacing
  cases hid : old.node.id with
  | none => exact Nat.le_refl _
  | some i =>
      rw [hid] at hne
      refine tally_price_substitute_le (hne rfl)
        (fun q d _ _ => Workspace.role_fitted q d new) fun q d _ _ p => ?_
      rw [Workspace.tally_fitted hwhole, hnew]
      exact Nat.zero_le _

theorem tally_price_identifier (name : Text) (p : Place) :
    (Build.identifier name).tally price p = 0 := by
  rw [tally_children_nil rfl]
  exact Place.weigh_price_use_of_kind (s := .identifier)
    (h := (Build.identifier name).head) rfl (by decide)

theorem isWhole_identifier (name : Text) : (Build.identifier name).IsWhole :=
  isWhole_of_kind (s := .identifier) rfl rfl (by decide)

/-- Plain parameters are worth nothing. -/
theorem tally_price_formalParameters {ps : List Node} (h : ∀ q ∈ ps, q.worth = 0)
    (p : Place) : (Build.formalParameters ps).tally price p = 0 := by
  have hsum : (ps.map worth).sum = 0 :=
    List.sum_eq_zero fun x hx => by
      obtain ⟨q, hq, rfl⟩ := List.mem_map.1 hx
      exact h q hq
  rw [Build.formalParameters, tally_branch (by decide) (by decide)]
  simp only [weight_price]
  rw [Place.weigh_price_use_of_kind (s := .formalParameters) rfl (by decide)]
  simpa using hsum

end Node

namespace Cursor

variable {callback first second : Cursor} {base whole : Node} {p : Place}

theorem tally_price_naming_le {thisNodes : List Cursor} (name : Text)
    (hnd : base.ids.Nodup) (hbase : base.is .thisExpr = false)
    (hthis : ∀ n ∈ thisNodes, n.node ∈ base.walk ∧ n.is .thisExpr = true)
    (hw : Renews base whole) :
    (thisNodes.foldl (fun w n => w.replacing n (Build.identifier name)) whole).tally
      price p ≤ whole.tally price p := by
  induction thisNodes generalizing whole with
  | nil => exact Nat.le_refl _
  | cons n ns ih =>
      rw [List.forall_mem_cons] at hthis
      obtain ⟨⟨hn, hk⟩, hthis⟩ := hthis
      exact Nat.le_trans (ih hthis (hw.naming name hnd hbase hn hk))
        (tally_price_replacing_le (hw.id_ne_thisExpr hnd hbase hn hk)
          (isWhole_identifier name) (tally_price_identifier name))

/-- A callback with its parameters exchanged is worth no more. -/
theorem Stands.tally_price_exchanging_le (hc : callback.Stands)
    (hp : callback.unparen.simpleParameters? = some [first, second])
    (hw : Renews callback.node whole) :
    (whole.exchanging first second).tally price p ≤ whole.tally price p := by
  obtain ⟨ps, hps⟩ := hc.exists_holdsPair hp
  have hzero : ∀ a ∈ [second, first], a.node.worth = 0 := by
    intro a ha
    refine worth_children_nil ((hps.shaped hc.node a ha).formed.plain ?_)
    rw [isAtom, Bool.or_eq_true]
    exact Or.inr (List.any_eq_true.2 ⟨.identifier, by decide, hps.names a ha⟩)
  rw [exchanging, parent?_of_mem_children (hps.mem_children first (by simp))]
  refine tally_price_replacing_le (fun hsome hid => ?_)
    (isWhole_of_kind (s := .formalParameters) rfl rfl (by decide))
    (tally_price_formalParameters ?_)
  · exact hps.id_ne hc hw hsome hid
  · rw [List.forall_mem_cons, List.forall_mem_singleton]
    exact ⟨hzero second (by simp), hzero first (by simp)⟩

theorem Stands.worth_visitor_le {params : List Cursor} (hc : callback.Stands)
    (hp : callback.unparen.simpleParameters? = some params) :
    (Rules.visitor callback callback.unparen params).worth ≤ callback.node.worth := by
  unfold Rules.visitor
  split
  · next index element =>
      have hthis := callback.this_mem_walk
      have hrefl := Renews.refl hc.node
      obtain ⟨-, -, hr, -⟩ := renews_naming element.code hc.nodup_node
        (hc.not_thisExpr hp) hthis (List.forall_mem_nil _) hrefl (Spares.refl _)
      exact Nat.le_trans (hc.tally_price_exchanging_le hp hr)
        (tally_price_naming_le element.code hc.nodup_node (hc.not_thisExpr hp) hthis hrefl)
  · exact Nat.le_refl _

end Cursor

-- ============================================================== operands

section Operands

variable {context : RuleContext} {c m o : Cursor} {target : Node}

theorem ElementOf.isOperand (h : ElementOf context o target) :
    target.isOperand = true := by
  cases h with
  | moved _ ha _ =>
      exact isOperand_of_mem_arguments (c := o) (by rw [ha]; exact List.mem_singleton.2 rfl)
  | lookedUp _ _ _ _ => rfl
  | @copied init a _ _ _ ha _ _ =>
      rw [isOperand_copy]
      exact isOperand_of_mem_arguments (c := init.unparen)
        (by rw [ha]; exact List.mem_singleton.2 rfl)

theorem Cursor.HasElement.isOperand (h : m.HasElement context target) :
    target.isOperand = true := by
  obtain ⟨o, -, helement⟩ := h
  exact helement.isOperand

theorem ElementOf.shaped (hs : o.Stands) (h : ElementOf context o target) :
    target.Shaped := by
  cases h with
  | moved _ ha _ =>
      exact shaped_of_mem_walk hs.node (mem_walk_of_mem_arguments (c := o)
        (by rw [ha]; exact List.mem_singleton.2 rfl))
  | lookedUp _ _ _ _ => exact shaped_elementById _
  | @copied init a _ hr _ ha _ _ =>
      rw [shaped_copy]
      exact shaped_of_mem_walk hs.shaped (mem_walk_trans (resolve?_mem_walk hr)
        (mem_walk_trans (unparen_mem_walk init)
          (mem_walk_of_mem_arguments (by rw [ha]; exact List.mem_singleton.2 rfl))))

/-- A call of the factory is worth what its argument is. -/
theorem worth_of_isFactoryCall {a : Cursor} (hs : o.node.Shaped) (hu : o.unparen = o)
    (hf : o.isFactoryCall context.factoryNames = .ok true) (ha : o.arguments = [a]) :
    o.node.worth = a.node.worth := by
  obtain ⟨g, hg, hident, -, -⟩ := isFactoryCall_callee hf
  obtain ⟨hk, -⟩ := isFactoryCall_spec hf
  rw [hu] at hg hk
  rw [worth, weight, tally_factoryCall hs hk hg hident ha, tally_price_argument]
  exact Nat.zero_add _

/-- The element behind a receiver is worth no more than the receiver. -/
theorem ElementOf.worth_le (hs : o.Stands) (hu : o.unparen = o)
    (h : ElementOf context o target) : target.worth ≤ o.node.worth := by
  have hshaped := h.shaped hs
  cases h with
  | moved hf ha _ => exact (worth_of_isFactoryCall hs.node hu hf ha).ge
  | lookedUp _ _ _ _ =>
      rw [elementById, Build.worth_methodCall, price_of_not_isSpent (by decide)]
      simp
  | @copied init a _ _ _ _ helement hstable =>
      have href : a.node.copy.isReference = true := by
        rw [isReference_copy]
        exact isReference_of_isStableAt helement hstable
      rw [worth_of_isReference hshaped href]
      exact Nat.zero_le _

end Operands

-- ================================================================= forms

section Forms

variable {context : RuleContext} {c m o : Cursor} {name : Text} {methods : List String}
  {new target : Node}

/-- The rewrite is worth no more where it stands than what it replaces, and
by `k` less. -/
def Node.Spends (k : Nat) (new : Node) (c : Cursor) : Prop :=
  ∀ p : Place, new.tally price p + k ≤ c.node.tally price p

/-- A call of a method is worth its receiver, the method, its arguments and
the call of it. -/
theorem Cursor.worth_methodCall_le (hs : c.node.Shaped) (hk : c.is .callExpression = true)
    (hm : c.calledMember? = some (m, name)) (ho : m.child? .object = some o) (p : Place) :
    o.unparen.node.worth + price (.method name) + (c.arguments.map (·.node.worth)).sum
      + p.recallPrice ≤ c.node.tally price p := by
  have hle := tally_methodCall_le (f := price) hs hk hm ho p
  rw [rest, tally_price_receiver] at hle
  simp only [tally_price_argument] at hle
  rw [Place.recallPrice]
  omega

/-- What a sweep looks for is worth a method that it takes out. -/
def Text.spent (name : Text) : Nat := if isSpent name then 1 else 0

theorem spent_le (name : Text) : name.spent ≤ price (.method name) := by
  unfold Text.spent
  split
  · next h => exact price_of_isSpent h
  · exact Nat.zero_le _

/-- What a rule writes in the place of a method call spends the method. -/
theorem MethodForm.spends (hc : c.Stands) (hk : c.is .callExpression = true)
    (hm : c.calledMember? = some (m, name)) (h : MethodForm context c m name methods new)
    (hname : name.isOneOf methods = true) : new.Spends name.spent c := by
  have hspent := spent_le name
  -- by itself it has to be worth no more than the parts
  have build : ∀ {o}, m.child? .object = some o → new.IsModest →
      new.worth + name.spent ≤ o.unparen.node.worth + price (.method name)
        + (c.arguments.map (·.node.worth)).sum → new.Spends name.spent c := by
    intro o ho hmodest hle p
    have hcall := worth_methodCall_le hc.node hk hm ho p
    have hmodest := hmodest p
    omega
  have stands : ∀ {o}, m.child? .object = some o → o.unparen.Stands := fun ho =>
    hc.of_mem_walk ((below_of_object hm ho).of_mem_walk (unparen_mem_walk _)).mem_walk
  have fetch : ∀ {target}, m.HasElement context target → ∃ o, m.child? .object = some o
      ∧ target.worth ≤ o.unparen.node.worth := by
    rintro target ⟨o, ho, helement⟩
    exact ⟨o, ho, helement.worth_le (stands ho) (unparen_unparen o)⟩
  have args : ∀ {kept : List Cursor}, kept.Sublist c.arguments →
      (kept.map (·.node.worth)).sum ≤ (c.arguments.map (·.node.worth)).sum := fun h =>
    (h.map _).sum_le_sum fun _ _ => Nat.zero_le _
  cases h with
  | @tell _ target method path words kept _ hmethod _ ht hkept =>
      obtain ⟨o, ho, hle⟩ := fetch ht
      refine build ho (Build.isModest_call _ _) ?_
      have hwords : ((words.map Build.string).map worth).sum = 0 := by
        simp [List.map_map, Function.comp_def]
      have hkept := args hkept
      rw [Build.worth_methodCall,
        Build.worth_path, price_of_not_isSpent hmethod, List.map_append, List.sum_append,
        hwords, List.map_map, Function.comp_def]
      omega
  | read _ hproperty _ ht =>
      obtain ⟨o, ho, hle⟩ := fetch ht
      refine build ho (Build.isModest_member _ _) ?_
      rw [Build.worth_member]
      omega
  | prop _ ht =>
      obtain ⟨o, ho, hle⟩ := fetch ht
      refine build ho (Build.isModest_member _ _) ?_
      rw [Build.worth_member]
      omega
  | @write _ target value path _ _ ht hv =>
      obtain ⟨o, ho, hle⟩ := fetch ht
      refine build ho (isModest_of_kind (s := .assignmentExpression) rfl rfl (by decide)) ?_
      have hvalue := args (List.singleton_sublist.2 hv)
      rw [Build.worth_assignment, Build.worth_path]
      rw [List.map_singleton, List.sum_singleton] at hvalue
      omega
  | @display _ target word path _ _ ht =>
      obtain ⟨o, ho, hle⟩ := fetch ht
      refine build ho (isModest_of_kind (s := .assignmentExpression) rfl rfl (by decide)) ?_
      rw [Build.worth_assignment, Build.worth_path, Build.worth_string]
      omega
  | computed ht =>
      obtain ⟨o, ho, hle⟩ := fetch ht
      refine build ho (Build.isModest_call _ _) ?_
      rw [Build.worth_methodCall, Build.worth_call_identifier,
        price_of_not_isSpent (by decide)]
      simp only [List.map_cons, List.map_nil, List.sum_cons, List.sum_nil,
        Build.worth_string]
      omega
  | dispatch ht hargs =>
      obtain ⟨o, ho, hle⟩ := fetch ht
      refine build ho (Build.isModest_call _ _) ?_
      rw [Build.worth_methodCall, price_of_not_isSpent (by decide), hargs]
      simp only [List.map_cons, List.map_nil, List.sum_cons, List.sum_nil,
        Build.worth_newExpression, Build.worth_identifier, Build.worth_object_one,
        Build.worth_boolean]
      omega
  | size ho _ =>
      refine build ho (Build.isModest_member _ _) ?_
      rw [Build.worth_path, Build.worth_identifier]
      omega
  | loaded ho hf hargs =>
      refine build ho (Build.isModest_call _ _) ?_
      rw [Rules.worth_whenLoaded, hargs, List.map_singleton, List.sum_singleton]
      omega
  | neighbour _ _ ht =>
      obtain ⟨o, ho, hle⟩ := fetch ht
      refine build ho (Build.isModest_call _ _) ?_
      rw [rewrap, Build.worth_call_identifier]
      simp only [List.map_cons, List.map_nil, List.sum_cons, List.sum_nil,
        Build.worth_member]
      omega
  | found _ ht hargs =>
      obtain ⟨o, ho, hle⟩ := fetch ht
      refine build ho (Build.isModest_call _ _) ?_
      rw [rewrap, Build.worth_call_identifier, hargs]
      simp only [List.map_cons, List.map_nil, List.sum_cons, List.sum_nil,
        Build.worth_methodCall, price_of_not_isSpent (t := "querySelectorAll")
          (by decide)]
      omega
  | closest _ ht hargs _ =>
      obtain ⟨o, ho, hle⟩ := fetch ht
      refine build ho (Build.isModest_call _ _) ?_
      rw [rewrap, Build.worth_call_identifier, hargs]
      simp only [List.map_cons, List.map_nil, List.sum_cons, List.sum_nil,
        Build.worth_methodCall, price_of_not_isSpent (t := "closest")
          (by decide)]
      omega
  | @siblings factory target _ ht _ _ href =>
      obtain ⟨o, ho, helement⟩ := ht
      have hle := helement.worth_le (stands ho) (unparen_unparen o)
      have hzero : target.worth = 0 :=
        worth_of_isReference (helement.shaped (stands ho)) href
      have hsiblings : price (.method name) = 2 := by
        obtain ⟨t, ht, heq⟩ := List.any_eq_true.1 hname
        rw [← beq_iff_eq.1 heq, List.mem_singleton.1 ht]
        rfl
      have hselector : ((c.arguments.head?.map (·.node)).toList.map worth).sum
          ≤ (c.arguments.map (·.node.worth)).sum := by
        cases c.arguments with
        | nil => exact Nat.le_refl _
        | cons a as => simp
      have hone : name.spent ≤ 1 := by
        unfold Text.spent
        split <;> decide
      refine build ho (Build.isModest_call _ _) ?_
      rw [rewrap, Build.worth_call_identifier, List.map_singleton, List.sum_singleton,
        Rules.worth_siblingsOf, hzero, hsiblings]
      omega
  | remove hremove ht hargs =>
      obtain ⟨o, ho, hle⟩ := fetch ht
      refine build ho (Build.isModest_call _ _) ?_
      rw [Build.worth_methodCall, price_of_not_isSpent (by decide), hargs]
      simp only [List.map_nil, List.sum_nil]
      omega
  | empty _ ht hargs =>
      obtain ⟨o, ho, hle⟩ := fetch ht
      refine build ho (Build.isModest_call _ _) ?_
      rw [Build.worth_methodCall, price_of_not_isSpent (by decide), hargs]
      simp only [List.map_nil, List.sum_nil]
      omega
  | insert ht hargs =>
      obtain ⟨o, ho, hle⟩ := fetch ht
      refine build ho (Build.isModest_call _ _) ?_
      have hkept : name.spent = 0 := by
        obtain ⟨t, ht, heq⟩ := List.any_eq_true.1 hname
        rw [← beq_iff_eq.1 heq]
        simp only [List.mem_cons, List.not_mem_nil, or_false] at ht
        rcases ht with rfl | rfl | rfl | rfl <;> decide
      rw [Build.worth_methodCall, hargs, hkept]
      simp only [List.map_cons, List.map_nil, List.sum_cons, List.sum_nil]
      omega
  | @visit o selector callback params ho hf hsel hargs hparams =>
      refine build ho (Build.isModest_call _ _) ?_
      have hstands := hc.of_mem_walk (mem_walk_of_mem_arguments (c := c)
        (by rw [hargs]; exact List.mem_singleton.2 rfl))
      have hvisitor := hstands.worth_visitor_le hparams
      have hselector := worth_of_isFactoryCall (stands ho).node (unparen_unparen o) hf hsel
      rw [Build.worth_methodCall, Rules.worth_queryAll,
        price_of_not_isSpent (by decide), hargs]
      simp only [List.map_cons, List.map_nil, List.sum_cons, List.sum_nil]
      omega
  | @each o array callback renewed ho hf hargs hrenewed =>
      refine build ho (Build.isModest_call _ _) ?_
      have hstands := hc.of_mem_walk (mem_walk_of_mem_arguments (c := c)
        (a := callback) (by rw [hargs]; simp))
      have hle : renewed.worth ≤ callback.node.worth := by
        rcases hrenewed with rfl | ⟨index, value, hp, rfl⟩
        · exact Nat.le_refl _
        · exact hstands.tally_price_exchanging_le hp (Renews.refl hstands.node)
      rw [Build.worth_methodCall, price_of_not_isSpent (by decide), hargs]
      simp only [List.map_cons, List.map_nil, List.sum_cons, List.sum_nil]
      omega
  | @grep o array callback ho hf hargs =>
      refine build ho (Build.isModest_call _ _) ?_
      rw [Build.worth_methodCall, price_of_not_isSpent (by decide), hargs]
      simp only [List.map_cons, List.map_nil, List.sum_cons, List.sum_nil]
      omega
  | @map o array callback ho hf hargs _ =>
      refine build ho (Build.isModest_call _ _) ?_
      rw [Build.worth_methodCall, price_of_not_isSpent (by decide), hargs]
      simp only [List.map_cons, List.map_nil, List.sum_cons, List.sum_nil]
      omega
  | @trim o text ho hf hargs _ =>
      refine build ho (Build.isModest_call _ _) ?_
      rw [Build.worth_methodCall, price_of_not_isSpent (by decide), hargs]
      simp only [List.map_cons, List.map_nil, List.sum_cons, List.sum_nil]
      omega

end Forms

-- ================================================================ idioms

namespace Node

/-- Where it stands a comparison is worth the call of it besides. -/
theorem worth_add_recall_le {n : Node} (hop : n.isOperand = true)
    (hk : n.is .binaryExpression = true) (p : Place) :
    n.worth + p.recallPrice ≤ n.tally price p := by
  have hne : ∀ t ≠ Symbol.binaryExpression, n.is t = false := fun t ht =>
    is_false_of_kind (is_iff.1 hk) ht.symm
  have hcallee : ∀ d fs, n.tally price ⟨.callee, d, fs⟩ = n.worth + 3 := by
    intro d fs
    have hk : n.head.is .binaryExpression = true := hk
    rw [tally_callee (hne _ (by decide)) (hne _ (by decide)), weight_price, use_callee, hk,
      Bool.or_true, if_pos rfl]
    rfl
  obtain ⟨s, d, fs⟩ := p
  cases s with
  | callee => exact (hcallee d fs).ge
  | calleeWithin =>
      rw [tally, ← show Standing.within .callee = .calleeWithin from rfl,
        Cursor.uses_within (by decide) hop]
      exact (hcallee d fs).ge
  | method =>
      have hwhole : n.IsWhole := ⟨hop, hne _ (by decide), hne _ (by decide), hne _ (by decide)⟩
      rw [hwhole.tally_eq (by simp [Standing.outside]) (by simp [Standing.outside]),
        weight_price]
      exact Nat.add_le_add_left (Nat.zero_le _) _
  | _ =>
      rw [tally_price (by simp [Standing.outside]) (by simp [Standing.outside])]
      exact Nat.le_refl _

end Node

section Idioms

variable {c call other m o : Cursor} {name : Text} {new : Node}

/-- A comparison is worth both sides and the call of it. -/
theorem Compares.worth_le (h : Compares c call other) (hs : c.node.Shaped) (p : Place) :
    call.node.worth + other.node.worth + p.recallPrice ≤ c.node.tally price p := by
  obtain ⟨l, r, hl, hr, hsides⟩ := h.sides
  have hlrole : l.node.role = some .left := by simpa using List.find?_some hl
  have hrrole : r.node.role = some .right := by simpa using List.find?_some hr
  have hmem : ∀ {role d}, c.child? role = some d → d.node ∈ c.node.children := fun hd =>
    node_mem_of_mem_children (mem_children_of_child? hd)
  have hne : l.node ≠ r.node := by
    intro heq
    rw [heq, hrrole] at hlrole
    cases hlrole
  have hsum := sum_pair_le (g := worth) (hmem hl) (hmem hr) hne
  have hcall : c.node.is .callExpression = false :=
    is_false_of_kind (is_iff.1 h.kind) (by decide)
  rw [← worth_eq hcall] at hsum
  have hle := worth_add_recall_le (isOperand_of_child? hs hl) h.kind p
  have hlu := worth_unparen (shaped_of_child? hs hl)
  have hru := worth_unparen (shaped_of_child? hs hr)
  rcases hsides with ⟨rfl, rfl⟩ | ⟨rfl, rfl⟩ <;> omega

/-- A call of a method that stands by itself. -/
theorem Cursor.worth_of_calledMember (hs : c.node.Shaped)
    (hk : c.is .callExpression = true) (hm : c.calledMember? = some (m, name)) :
    price (.method name) + (c.arguments.map (·.node.worth)).sum ≤ c.node.worth := by
  have hle := tally_calledMember_le (f := price) hs hk hm ⟨.plain, 0, []⟩
  rw [rest] at hle
  simp only [tally_price_argument] at hle
  rw [worth, weight]
  omega

theorem Cursor.worth_of_methodCall (hs : c.node.Shaped) (hk : c.is .callExpression = true)
    (hm : c.calledMember? = some (m, name)) (ho : m.child? .object = some o) :
    o.unparen.node.worth + price (.method name) + (c.arguments.map (·.node.worth)).sum
      ≤ c.node.worth :=
  Nat.le_trans (Nat.le_add_right _ _) (worth_methodCall_le hs hk hm ho ⟨.plain, 0, []⟩)

theorem Build.isModest_negatedIf {e : Node} (negated : Bool) (h : e.IsModest) :
    (Build.negatedIf negated e).IsModest := by
  cases negated with
  | false => exact h
  | true => exact isModest_of_kind (s := .unaryExpression) rfl rfl (by decide)

/-- The test that an index call turns into spends the call. -/
theorem Compares.inArray_spends {value array : Cursor} {negated : Bool}
    (h : Compares c call other) (hs : c.node.Shaped) (hk : call.is .callExpression = true)
    (hm : call.calledMember? = some (m, Text.ofString "inArray"))
    (hargs : call.arguments = [value, array]) :
    (Build.negatedIf negated (Build.methodCall array.node "includes"
      [value.node])).Spends 1 c := by
  intro p
  have hsum := h.worth_le hs p
  have hcall := worth_of_calledMember (shaped_of_mem_walk hs h.call_mem_walk) hk hm
  have hprice := price_of_isSpent (t := Text.ofString "inArray") (by decide)
  have hmodest := Build.isModest_negatedIf negated
    (Build.isModest_call (Build.member array.node "includes") [value.node]) p
  have hworth : (Build.negatedIf negated (Build.methodCall array.node "includes"
      [value.node])).worth = array.node.worth + value.node.worth := by
    rw [Build.worth_negatedIf, Build.worth_methodCall, price_of_not_isSpent (by decide),
      List.map_singleton, List.sum_singleton, Nat.add_zero]
  simp only [hargs, List.map_cons, List.map_nil, List.sum_cons, List.sum_nil] at hcall
  change (Build.negatedIf negated (Build.methodCall _ _ _)).tally price p
    ≤ (Build.negatedIf negated (Build.methodCall _ _ _)).worth + _ at hmodest
  omega

/-- Only calls call a method. -/
theorem Cursor.is_callExpression_of_calledMember? (hs : c.node.Shaped)
    (hk : c.is .callExpression = true ∨ c.is .binaryExpression = true)
    (hm : c.calledMember? = some (m, name)) : c.is .callExpression = true := by
  refine hk.resolve_right fun hb => ?_
  obtain ⟨g, hg, rfl⟩ := exists_function hm
  have hrole : g.node.role = some .function := by simpa using List.find?_some hg
  have hmem := node_mem_of_mem_children (mem_children_of_child? hg)
  have hmute := (hs.formed.parts _ _ (is_iff.1 hb) rfl).others g.node hmem
    (by rw [standsIn, hrole]; rfl)
  rw [isMute, Bool.and_eq_true, List.isEmpty_iff] at hmute
  have hwalk := node_mem_walk (unparen_mem_walk g)
  rw [Node.walk_eq, hmute.1, List.flatMap_nil, List.mem_singleton] at hwalk
  obtain ⟨q, hq, -, -⟩ := exists_property (f := price)
    (shaped_of_mem_walk (shaped_of_child? hs hg) (unparen_mem_walk g))
    (calledMember?_eq_some hm).2
  rw [hwalk, hmute.1] at hq
  cases hq

/-- What a rule for older idioms writes spends a method. -/
theorem IdiomForm.spends (hs : c.node.Shaped)
    (hk : c.is .callExpression = true ∨ c.is .binaryExpression = true)
    (h : IdiomForm c new) : new.Spends 1 c := by
  -- a call by itself, and what it is compared with
  have alone : ∀ {m name}, c.calledMember? = some (m, name) → isSpent name = true →
      new.IsModest → new.worth ≤ (c.arguments.map (·.node.worth)).sum → new.Spends 1 c := by
    intro m name hm hspent hmodest hle p
    have hcall := tally_calledMember_le (f := price) hs
      (is_callExpression_of_calledMember? hs hk hm) hm p
    rw [rest] at hcall
    simp only [tally_price_argument] at hcall
    have hprice := price_of_isSpent hspent
    have hmodest := hmodest p
    rw [Place.recallPrice] at hmodest
    omega
  have compared : ∀ {call other m name}, Compares c call other →
      call.is .callExpression = true → call.calledMember? = some (m, name) →
      isSpent name = true → new.IsModest →
      (call.node.Shaped → call.is .callExpression = true →
        new.worth + 1 ≤ call.node.worth + other.node.worth) → new.Spends 1 c := by
    intro call other m name hcmp hck hm hspent hmodest hle p
    have hsum := hcmp.worth_le hs p
    have hle := hle (shaped_of_mem_walk hs hcmp.call_mem_walk) hck
    have hmodest := hmodest p
    omega
  cases h with
  | power hm hargs =>
      refine alone hm (by decide) (isModest_of_kind (s := .binaryExpression) rfl rfl
        (by decide)) ?_
      simp [Build.worth_binary, hargs]
  | @slice m o name numbers kept hm hspent _ ho hkept =>
      intro p
      have hcall := worth_methodCall_le hs (is_callExpression_of_calledMember? hs hk hm) hm
        ho p
      have hprice := price_of_isSpent hspent
      have hsum := (hkept.map (·.node.worth)).sum_le_sum fun _ _ => Nat.zero_le _
      have hnumbers : ((numbers.map Build.number).map worth).sum = 0 := by
        simp [List.map_map, Function.comp_def]
      have hmodest := Build.isModest_call (Build.member o.unparen.node "slice")
        (numbers.map Build.number ++ kept.map (·.node)) p
      have hworth : (Build.methodCall o.unparen.node "slice" (numbers.map Build.number
          ++ kept.map (·.node))).worth
          = o.unparen.node.worth + (kept.map (·.node.worth)).sum := by
        rw [Build.worth_methodCall, price_of_not_isSpent (by decide), List.map_append,
          List.sum_append, hnumbers, List.map_map, Function.comp_def]
        omega
      change (Build.methodCall _ _ _).tally price p ≤ (Build.methodCall _ _ _).worth + _
        at hmodest
      omega
  | spread hm hspent hargs =>
      refine alone hm hspent (isModest_of_kind (s := .array) rfl rfl (by decide)) ?_
      simp [hargs]
  | @test call other m o arg name method receiver negated hcmp hck hm hspent hmethod _ ho
      hreceiver hargs =>
      refine compared hcmp hck hm hspent
        (Build.isModest_negatedIf negated (Build.isModest_call _ _)) fun hcs hck => ?_
      have hcall := worth_of_methodCall hcs hck hm ho
      have hprice := price_of_isSpent hspent
      have hworth : receiver.worth = o.unparen.node.worth := by
        rcases hreceiver with rfl | rfl
        · exact (worth_unparen (hcs.of_mem_walk (node_mem_walk
            (below_of_object hm ho).mem_walk))).symm
        · rfl
      rw [Build.worth_negatedIf, Build.worth_methodCall,
        price_of_not_isSpent hmethod, hworth]
      rw [hargs, List.map_singleton, List.sum_singleton] at hcall
      rw [List.map_singleton, List.sum_singleton]
      omega
  | @start call other m o name negated hcmp hck hm hspent ho =>
      refine compared hcmp hck hm hspent
        (Build.isModest_negatedIf negated (Build.isModest_call _ _)) fun hcs hck => ?_
      have hcall := worth_of_methodCall hcs hck hm ho
      have hprice := price_of_isSpent hspent
      rw [Build.worth_negatedIf, Build.worth_methodCall,
        price_of_not_isSpent (by decide), List.map_singleton, List.sum_singleton]
      omega

end Idioms

end Codemod
