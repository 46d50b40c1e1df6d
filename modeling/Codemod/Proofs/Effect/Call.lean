/-
The effects of calls.

A call has itself for an effect, then those of its receiver, then those
of its arguments (`effects_methodCall`). The template of a tagged call is
no argument to the rules, so its effects are counted apart
(`Cursor.templateEffects`).

Literals and names have no effects; the receivers that the rules take
apart are made of these and of what they keep (`receiverTarget?_spec`).
-/
import Codemod.Proofs.Tree.Assembly
import Codemod.Rule.Receiver

namespace Codemod

namespace Cursor

variable {c m o : Cursor} {name : Text}

theorem shaped_of_mem_walk {d : Cursor} (h : c.node.Shaped) (hd : d ∈ c.walk) :
    d.node.Shaped :=
  h.of_mem_walk (node_mem_walk hd)

theorem shaped_of_child? {d : Cursor} {r : Role} (h : c.node.Shaped)
    (hd : c.child? r = some d) : d.node.Shaped :=
  shaped_of_mem_walk h (mem_walk_of_child? hd)

/-- The part of an expression in a role, parentheses taken off. -/
theorem inner?_eq_some {r : Role} {d : Cursor} :
    c.inner? r = some d ↔ ∃ e, c.child? r = some e ∧ e.unparen = d := by
  rw [inner?, Option.map_eq_some_iff]

-- ============================================================= literals

/-- A kind of expression without parts has no effects below it. -/
theorem effects_of_no_parts {s : Symbol} (h : c.node.Formed) (hk : c.is s = true)
    (hr : Node.partRoles? s = some []) (hs : s ∉ effectSymbols) :
    c.node.effects = [] := by
  rw [effects_parts h hk hr List.nodup_nil, ownListed_of_kind hk hs]
  rfl

/-- A name or a number has no effects. -/
theorem effects_atom (h : c.node.Shaped) (hk : c.isAny Node.atomSymbols = true) :
    c.node.effects = [] := by
  have hnil : c.node.children = [] := by
    refine h.formed.plain ?_
    rw [Node.isAtom, Bool.or_eq_true]
    exact Or.inr hk
  have hown : c.node.ownListed isEffectKind = [] := by
    obtain ⟨s, hs, hk⟩ := List.any_eq_true.1 hk
    have hno : ∀ s ∈ Node.atomSymbols, s ∉ effectSymbols := by decide
    exact ownListed_of_kind hk (hno s hs)
  rw [Node.effects_eq, hnil, hown]
  rfl

theorem effects_identifier (h : c.node.Shaped) (hk : c.is .identifier = true) :
    c.node.effects = [] :=
  effects_atom h (List.any_eq_true.2 ⟨_, by decide, hk⟩)

theorem effects_number (h : c.node.Shaped) (hk : c.is .number = true) :
    c.node.effects = [] :=
  effects_atom h (List.any_eq_true.2 ⟨_, by decide, hk⟩)

theorem effects_thisExpr (h : c.node.Shaped) (hk : c.is .thisExpr = true) :
    c.node.effects = [] :=
  effects_atom h (List.any_eq_true.2 ⟨_, by decide, hk⟩)

/-- A string whose value is known has no effects. -/
theorem effects_of_stringValue {t : Text} (h : c.node.Shaped)
    (hv : c.node.stringValue = .ok (some t)) : c.node.effects = [] := by
  unfold Node.stringValue at hv
  split at hv
  · cases hv
  · next hk =>
      split at hv
      · cases hv
      · next ht =>
          cases hstr : c.is .string with
          | true => exact effects_of_no_parts h.formed hstr rfl (by decide)
          | false =>
              have hstr' : c.node.is .string = false := hstr
              have htpl : c.node.is .templateString = true := by
                simpa [Node.isAny, hstr'] using hk
              have hmute := h.formed.template htpl
              rw [Node.effects_eq, ownListed_of_kind htpl (by decide),
                List.nil_append, List.flatMap_eq_nil_iff]
              intro d hd
              refine Node.effects_of_isMute (hmute d hd ?_)
              have hany : (c.node.children.any (·.is .templateSubstitution))
                  = false := by simpa using ht
              exact Bool.eq_false_iff.2 fun h =>
                Bool.eq_false_iff.1 hany (List.any_eq_true.2 ⟨d, hd, h⟩)

-- ================================================================ calls

/-- The template of a tagged call. -/
def taggedTemplate? (c : Cursor) : Option Cursor :=
  match c.child? .arguments with
  | some a => if a.is .arguments then none else some a
  | none => none

/-- The effects in the template of a tagged call. -/
def templateEffects (c : Cursor) : List Nat :=
  match c.taggedTemplate? with
  | some a => a.node.effects
  | none => []

theorem effects_arguments_child (h : c.node.Shaped) :
    ((c.child? .arguments).toList).flatMap (·.node.effects)
      = c.arguments.flatMap (·.node.effects) ++ c.templateEffects := by
  unfold arguments templateEffects taggedTemplate?
  cases ha : c.child? .arguments with
  | none => rfl
  | some a =>
      cases hk : a.is .arguments with
      | false => simp [hk]
      | true =>
          have hshape := shaped_of_child? h ha
          simp only [Option.toList_some, List.flatMap_cons, List.flatMap_nil,
            List.append_nil, hk, if_true]
          rw [Node.effects_eq, ownListed_of_kind hk (by decide),
            effects_operands hshape, ← map_node_operands, List.flatMap_map]
          rfl

/-- The effects of a call: itself, those of its function, those of its
arguments and those of its template. -/
theorem effects_call (h : c.node.Shaped) (hk : c.is .callExpression = true) :
    c.node.effects = c.node.ownListed isEffectKind
      ++ ((c.child? .function).toList.flatMap (·.node.effects)
        ++ (c.arguments.flatMap (·.node.effects) ++ c.templateEffects)) := by
  rw [effects_parts h.formed hk rfl (by decide), ← effects_arguments_child h,
    List.filterMap_eq_flatMap_toList]
  simp only [List.flatMap_cons, List.flatMap_nil, List.append_nil,
    List.flatMap_append]

/-- Function and arguments stand in this order, nothing twice. -/
theorem listed_call_sublist (h : c.node.Shaped)
    (hk : c.is .callExpression = true) (p : Kind → Bool → Bool) :
    ((c.child? .function).toList.flatMap (·.node.listed p)
      ++ c.arguments.flatMap (·.node.listed p)).Sublist (c.node.listed p) := by
  refine List.Sublist.trans ?_ (listed_parts h.formed hk rfl (by decide) p)
  have hargs : (c.arguments.flatMap (·.node.listed p)).Sublist
      ((c.child? .arguments).toList.flatMap (·.node.listed p)) := by
    unfold arguments
    cases ha : c.child? .arguments with
    | none => simp
    | some a =>
        cases hka : a.is .arguments with
        | false => simp [hka]
        | true =>
            simp only [hka, if_true, Option.toList_some, List.flatMap_cons,
              List.flatMap_nil, List.append_nil]
            rw [Node.listed_eq p a.node]
            refine List.Sublist.trans ?_ (List.sublist_append_right _ _)
            rw [← map_node_children, List.flatMap_map]
            exact List.Sublist.flatMap List.filter_sublist _
  rw [List.filterMap_eq_flatMap_toList]
  simp only [List.flatMap_cons, List.flatMap_nil, List.append_nil,
    List.flatMap_append]
  exact List.Sublist.append (List.Sublist.refl _) hargs

theorem is_of_propertyName? {n : Node} {t : Text}
    (h : n.propertyName? = some t) : n.is .memberExpression = true := by
  unfold Node.propertyName? at h
  split at h
  · cases h
  · next hk => simpa using hk

theorem calledMember?_eq_some (hm : c.calledMember? = some (m, name)) :
    c.inner? .function = some m ∧ m.node.propertyName? = some name := by
  unfold calledMember? at hm
  split at hm
  · next m' hm' =>
      split at hm
      · next name' hname =>
          obtain ⟨rfl, rfl⟩ := Prod.mk.inj (Option.some.inj hm)
          exact ⟨hm', hname⟩
      · cases hm
  · cases hm

/-- All effects of a member access are those of its object. -/
theorem effects_member (h : m.node.Shaped)
    (hk : m.is .memberExpression = true) :
    m.node.effects = (m.child? .object).toList.flatMap (·.node.effects) := by
  rw [effects_parts h.formed hk rfl (by decide), ownListed_of_kind hk (by decide),
    List.filterMap_eq_flatMap_toList]
  simp only [List.flatMap_cons, List.flatMap_nil, List.append_nil,
    List.nil_append]

theorem listed_object_sublist (ho : m.child? .object = some o)
    (p : Kind → Bool → Bool) : (o.node.listed p).Sublist (m.node.listed p) :=
  Node.listed_sublist_of_mem_walk (node_mem_walk (mem_walk_of_child? ho)) p

theorem listed_unparen_sublist (c : Cursor) (p : Kind → Bool → Bool) :
    (c.unparen.node.listed p).Sublist (c.node.listed p) :=
  Node.listed_sublist_of_mem_walk (node_mem_walk (unparen_mem_walk c)) p

/-- The effects of a call through a member access: itself, those of the
object, those of its arguments and those of its template. -/
theorem effects_methodCall (h : c.node.Shaped)
    (hk : c.is .callExpression = true) (hm : c.inner? .function = some m)
    (hmk : m.is .memberExpression = true) (ho : m.child? .object = some o) :
    c.node.effects = c.node.ownListed isEffectKind
      ++ (o.node.effects
        ++ (c.arguments.flatMap (·.node.effects) ++ c.templateEffects)) := by
  obtain ⟨f, hf, rfl⟩ := inner?_eq_some.1 hm
  have hfs := shaped_of_child? h hf
  have hms := shaped_of_mem_walk hfs (unparen_mem_walk f)
  rw [effects_call h hk, hf]
  simp only [Option.toList_some, List.flatMap_cons, List.flatMap_nil,
    List.append_nil]
  rw [← effects_unparen hfs, effects_member hms hmk, ho]
  simp only [Option.toList_some, List.flatMap_cons, List.flatMap_nil,
    List.append_nil]

theorem listed_methodCall_sublist (h : c.node.Shaped)
    (hk : c.is .callExpression = true) (hm : c.inner? .function = some m)
    (ho : m.child? .object = some o) (p : Kind → Bool → Bool) :
    (o.node.listed p ++ c.arguments.flatMap (·.node.listed p)).Sublist
      (c.node.listed p) := by
  obtain ⟨f, hf, rfl⟩ := inner?_eq_some.1 hm
  have hcall := listed_call_sublist h hk p
  rw [hf] at hcall
  simp only [Option.toList_some, List.flatMap_cons, List.flatMap_nil,
    List.append_nil] at hcall
  refine List.Sublist.trans (List.Sublist.append ?_ (List.Sublist.refl _)) hcall
  exact (listed_object_sublist ho p).trans (listed_unparen_sublist f p)

/-- A call with arguments has no template. -/
theorem taggedTemplate?_of_arguments {a : Cursor} {as : List Cursor}
    (h : c.arguments = a :: as) : c.taggedTemplate? = none := by
  unfold arguments at h
  unfold taggedTemplate?
  cases ha : c.child? .arguments with
  | none => rfl
  | some b =>
      rw [ha] at h
      cases hk : b.is .arguments with
      | true => simp [hk]
      | false => simp [hk] at h

theorem templateEffects_of_arguments {a : Cursor} {as : List Cursor}
    (h : c.arguments = a :: as) : c.templateEffects = [] := by
  rw [templateEffects, taggedTemplate?_of_arguments h]

theorem shaped_of_mem_arguments {a : Cursor} (h : c.node.Shaped)
    (ha : a ∈ c.arguments) : a.node.Shaped := by
  unfold arguments at ha
  cases hargs : c.child? .arguments with
  | none => simp [hargs] at ha
  | some b =>
      rw [hargs] at ha
      cases hk : b.is .arguments with
      | false => simp [hk] at ha
      | true =>
          simp only [hk, if_true] at ha
          exact (shaped_of_child? h hargs).of_mem_children
            (node_mem_of_mem_children (mem_children_of_mem_operands ha))

-- ============================================================ factories

/-- What a call of the factory looks like. -/
theorem isFactoryCall_spec {names : List Text}
    (h : c.isFactoryCall names = .ok true) :
    c.unparen.is .callExpression = true
      ∧ (∃ f, c.unparen.child? .function = some f ∧ f.is .identifier = true)
      ∧ ∃ a, c.unparen.arguments = [a] := by
  unfold isFactoryCall at h
  simp only at h
  split at h
  · cases h
  · next hk =>
      split at h
      · cases h
      · next f hf =>
          split at h
          · cases h
          · next hident =>
              split at h
              · next a ha =>
                  refine ⟨by simpa using hk, ⟨f, hf, ?_⟩, a, ha⟩
                  simp only [Bool.or_eq_true, not_or, Bool.not_eq_true',
                    Bool.not_eq_false] at hident
                  exact hident.1.1
              · cases h

/-- The effects of a call of the factory: itself and those of its
argument. -/
theorem effects_factoryCall {a f : Cursor} (h : c.node.Shaped)
    (hk : c.is .callExpression = true) (hf : c.child? .function = some f)
    (hident : f.is .identifier = true) (ha : c.arguments = [a]) :
    c.node.effects = c.node.ownListed isEffectKind ++ a.node.effects := by
  rw [effects_call h hk, hf, ha, templateEffects_of_arguments ha]
  simp [effects_identifier (shaped_of_child? h hf) hident]

/-- The identifier of the factory has no effects. -/
theorem effects_of_isFactoryIdentifier {names : List Text} (h : c.node.Shaped)
    (hc : c.isFactoryIdentifier names = .ok true) : c.node.effects = [] := by
  unfold isFactoryIdentifier at hc
  simp only at hc
  split at hc
  · next hk =>
      rw [← effects_unparen h]
      simp only [Bool.and_eq_true] at hk
      exact effects_identifier (shaped_of_mem_walk h (unparen_mem_walk c)) hk.1
  · cases hc

end Cursor

-- ============================================================ receivers

/-- The identity of the call of the factory that a receiver is. -/
def unwrappedCall (names : List Text) (receiver : Cursor) : List Nat :=
  match receiver.isFactoryCall names with
  | .ok true => receiver.node.id.toList
  | _ => []

/-- What a rule puts in the place of a receiver: the receiver's own
effects, without the call of the factory that is unwrapped. -/
structure StandsFor (names : List Text) (receiver : Cursor) (target : Node) :
    Prop where
  shaped : target.Shaped
  listed : ∀ p, (target.listed p).Sublist (receiver.node.listed p)
  effects : ∃ gone, receiver.node.effects = gone ++ target.effects
    ∧ ∀ i ∈ gone, i ∈ unwrappedCall names receiver

theorem ownListed_subset (p : Kind → Bool → Bool) (n : Node) :
    ∀ i ∈ n.ownListed p, i ∈ n.id.toList := by
  intro i hi
  unfold Node.ownListed at hi
  split at hi
  · exact hi
  · cases hi

/-- The argument of a call of the factory stands for the call. -/
theorem standsFor_argument {names : List Text} {receiver a : Cursor}
    (h : receiver.node.Shaped) (hu : receiver.unparen = receiver)
    (hf : receiver.isFactoryCall names = .ok true)
    (ha : receiver.arguments = [a]) : StandsFor names receiver a.node := by
  obtain ⟨hk, ⟨f, hf', hident⟩, -⟩ := Cursor.isFactoryCall_spec hf
  rw [hu] at hk hf'
  refine ⟨Cursor.shaped_of_mem_arguments h (by rw [ha]; exact List.mem_singleton.2 rfl),
    fun p => ?_, ?_⟩
  · have := Cursor.listed_call_sublist h hk p
    rw [ha] at this
    refine List.Sublist.trans ?_ this
    simp
  · refine ⟨receiver.node.ownListed isEffectKind,
      Cursor.effects_factoryCall h hk hf' hident ha, fun i hi => ?_⟩
    rw [unwrappedCall, hf]
    exact ownListed_subset _ _ i hi

/-- Something fresh without effects stands for a call of the factory
whose argument has none. -/
theorem standsFor_fresh {names : List Text} {receiver a : Cursor} {target : Node}
    (h : receiver.node.Shaped) (hu : receiver.unparen = receiver)
    (hf : receiver.isFactoryCall names = .ok true)
    (ha : receiver.arguments = [a]) (hae : a.node.effects = [])
    (ht : target.Shaped) (hlisted : ∀ p, target.listed p = []) :
    StandsFor names receiver target := by
  obtain ⟨hk, ⟨f, hf', hident⟩, -⟩ := Cursor.isFactoryCall_spec hf
  rw [hu] at hk hf'
  refine ⟨ht, fun p => by rw [hlisted]; exact List.nil_sublist _, ?_⟩
  refine ⟨receiver.node.ownListed isEffectKind, ?_, fun i hi => ?_⟩
  · rw [Cursor.effects_factoryCall h hk hf' hident ha, hae, Node.effects, hlisted]
  · rw [unwrappedCall, hf]
    exact ownListed_subset _ _ i hi

/-- Something fresh stands for a name. -/
theorem standsFor_identifier {names : List Text} {receiver : Cursor}
    {target : Node} (h : receiver.node.Shaped)
    (hk : receiver.is .identifier = true) (ht : target.Shaped)
    (hlisted : ∀ p, target.listed p = []) : StandsFor names receiver target := by
  refine ⟨ht, fun p => by rw [hlisted]; exact List.nil_sublist _, [], ?_, by simp⟩
  rw [Cursor.effects_identifier h hk, Node.effects, hlisted]
  rfl

theorem shaped_elementById (id : Text) : (elementById id).Shaped :=
  Build.shaped_methodCall (Build.shaped_identifier _)
    (by intro a ha; rw [List.mem_singleton.1 ha]; exact Build.shaped_string _)

theorem listed_elementById (p : Kind → Bool → Bool) (id : Text) :
    (elementById id).listed p = [] := by
  simp [elementById]

/-- A wrapper is a call of the factory itself, or a name bound to one
elsewhere in the tree. -/
theorem wrapperCall?_spec {names : List Text} {c call : Cursor} {p : Provenance}
    (h : c.wrapperCall? names = .ok (some (p, call))) :
    (p = .direct ∧ call = c.unparen ∧ c.unparen.isFactoryCall names = .ok true)
      ∨ (p = .bound ∧ c.unparen.is .identifier = true
        ∧ ∃ init, c.unparen.resolve? c.unparen.code = some init
          ∧ call = init.unparen) := by
  unfold Cursor.wrapperCall? at h
  obtain ⟨b, hb, h⟩ := bind_eq_ok.1 h
  cases b with
  | true =>
      simp only [if_true, pure_eq_ok, Option.some.injEq, Prod.mk.injEq] at h
      exact Or.inl ⟨h.1.symm, h.2.symm, hb⟩
  | false =>
      simp only [Bool.false_eq_true, if_false] at h
      split at h
      · simp [pure_eq_ok] at h
      · next hk =>
          right
          split at h
          · simp [pure_eq_ok] at h
          · split at h
            · simp [pure_eq_ok] at h
            · split at h
              · simp [pure_eq_ok] at h
              · next init hinit =>
                  obtain ⟨b, -, h⟩ := bind_eq_ok.1 h
                  split at h
                  · simp [pure_eq_ok] at h
                  · split at h
                    · split at h
                      · simp only [pure_eq_ok, Option.some.injEq,
                          Prod.mk.injEq] at h
                        exact ⟨h.1.symm, by simpa using hk, init, hinit, h.2.symm⟩
                      · simp [pure_eq_ok] at h
                    · simp [pure_eq_ok] at h

-- ============================================================== aliases

namespace Cursor

theorem mem_of_lookUp_some {ds found : List Declaration} {ss : List Cursor}
    {s : Cursor} (h : lookUp ds ss = some (s, found)) : ∀ d ∈ found, d ∈ ds := by
  induction ss with
  | nil => cases h
  | cons t ss ih =>
      rw [lookUp] at h
      split at h
      · exact ih h
      · obtain ⟨-, rfl⟩ := Prod.mk.inj (Option.some.inj h)
        intro d hd
        exact List.mem_of_mem_filter hd

/-- The initializer of a variable stands in its declaration. -/
theorem init_mem_walk_of_variablesDeclared {v x : Cursor} {d : Declaration}
    (hd : d ∈ v.variablesDeclared) (hx : d.init = some x) : x ∈ v.walk := by
  unfold variablesDeclared at hd
  simp only at hd
  generalize (if v.is .variableDeclaration = true then v.functionScope?
    else v.enclosingScope?) = scope at hd
  generalize (if v.is .variableDeclaration = true then BindingKind.var
    else _) = kind at hd
  split at hd
  · cases hd
  · obtain ⟨e, he, hd⟩ := List.mem_flatMap.1 hd
    split at hd
    · cases hd
    · obtain ⟨y, -, rfl⟩ := List.mem_map.1 hd
      have he' : e ∈ v.walk :=
        mem_walk_of_mem_children (self_mem_walk v) (List.mem_of_mem_filter he)
      exact mem_walk_of_mem_children he' (mem_children_of_child? hx)

theorem init_of_mem_nameDeclared {v : Cursor} {k : BindingKind}
    {s : Option Cursor} {d : Declaration} (hd : d ∈ v.nameDeclared k s) :
    d.init = none := by
  unfold nameDeclared at hd
  split at hd
  · rw [List.mem_singleton.1 hd]
  · cases hd

theorem init_of_mem_parameterDeclared {p s : Cursor} {k : BindingKind}
    {d : Declaration} (hd : d ∈ parameterDeclared p s k) : d.init = none := by
  obtain ⟨y, -, rfl⟩ := List.mem_map.1 hd
  rfl

/-- Nothing that is declared in a head has an initializer. -/
theorem init_of_mem_declaredInHead {v : Cursor} {d : Declaration}
    (hd : d ∈ v.declaredInHead) : d.init = none := by
  unfold declaredInHead at hd
  split at hd
  · obtain ⟨p, -, hd⟩ := List.mem_flatMap.1 hd
    exact init_of_mem_parameterDeclared hd
  · split at hd
    · split at hd
      · exact init_of_mem_parameterDeclared hd
      · cases hd
    · split at hd
      · unfold loopDeclared at hd
        split at hd
        · obtain ⟨y, -, rfl⟩ := List.mem_map.1 hd
          rfl
        · cases hd
      · split at hd
        · obtain ⟨y, -, rfl⟩ := List.mem_map.1 hd
          rfl
        · cases hd

/-- The initializer of a declaration is a place of the tree. -/
theorem init_mem_walk {r x : Cursor} {d : Declaration} (hd : d ∈ r.declarations)
    (hx : d.init = some x) : x ∈ r.walk := by
  obtain ⟨v, hv, hd⟩ := List.mem_flatMap.1 hd
  rcases List.mem_append.1 hd with hd | hd
  · have hname : ∀ {k : BindingKind} {s : Option Cursor},
        d ∈ v.nameDeclared k s → x ∈ r.walk := fun hd => by
      rw [init_of_mem_nameDeclared hd] at hx
      cases hx
    unfold declaredBy at hd
    split at hd
    · exact mem_walk_trans hv (init_mem_walk_of_variablesDeclared hd hx)
    · split at hd
      · exact hname hd
      · split at hd
        · exact hname hd
        · split at hd
          · exact hname hd
          · cases hd
  · rw [init_of_mem_declaredInHead hd] at hx
    cases hx

/-- A name resolves to the initializer of its only declaration, where the
scope that binds it neither writes it nor is dynamic. -/
theorem resolve?_eq_some_iff {c init : Cursor} {name : Text} :
    c.resolve? name = some init ↔
      name.isEmpty = false ∧ c.inWith = false ∧ ∃ scope d target,
        c.binding? name = some (scope, [d])
        ∧ d.kind.isVariable = true ∧ d.destructured = false
        ∧ d.init = some init
        ∧ d.declarator.bind (·.child? .name) = some target
        ∧ target.same d.identifier = true
        ∧ scope.hasDynamicScope = false ∧ scope.isWritten name = false := by
  constructor
  · intro h
    unfold resolve? at h
    split at h
    · cases h
    · next hplain =>
        simp only [Bool.or_eq_true, not_or, Bool.not_eq_true] at hplain
        split at h
        · next scope d hbinding =>
            split at h
            · cases h
            · next hkind =>
                split at h
                · next init' target hinit htarget =>
                    split at h
                    · cases h
                    · next hsame =>
                        split at h
                        · cases h
                        · next hquiet =>
                            obtain rfl := Option.some.inj h
                            simp only [Bool.or_eq_true, not_or, Bool.not_eq_true,
                              Bool.not_eq_eq_eq_not, Bool.not_true,
                              Bool.not_eq_false] at hkind hsame hquiet
                            exact ⟨hplain.1, hplain.2, scope, d, target, hbinding,
                              hkind.1, hkind.2, hinit, htarget, hsame, hquiet⟩
                · cases h
        · cases h
  · rintro ⟨hname, hwith, scope, d, target, hbinding, hkind, hplain, hinit,
      htarget, hsame, hdyn, hwritten⟩
    simp [resolve?, hname, hwith, hbinding, hkind, hplain, hinit, htarget, hsame,
      hdyn, hwritten]

/-- A name resolves to a place of the tree. -/
theorem resolve?_mem_walk {c x : Cursor} {name : Text}
    (h : c.resolve? name = some x) : x ∈ c.root.walk := by
  obtain ⟨-, -, scope, d, -, hb, -, -, hinit, -⟩ := resolve?_eq_some_iff.1 h
  have hd := mem_of_lookUp_some hb d (List.mem_singleton.2 rfl)
  exact init_mem_walk (List.mem_of_mem_filter hd) hinit

theorem isOperand_of_mem_arguments {c a : Cursor} (h : a ∈ c.arguments) :
    a.node.isOperand = true := by
  unfold arguments at h
  split at h
  · split at h
    · exact (List.mem_filter.1 h).2
    · cases h
  · cases h

theorem mem_walk_of_mem_arguments {c a : Cursor} (h : a ∈ c.arguments) :
    a ∈ c.walk := by
  unfold arguments at h
  split at h
  · next b hb =>
      split at h
      · exact mem_walk_of_mem_children (mem_walk_of_child? hb)
          (mem_children_of_mem_operands h)
      · cases h
  · cases h

end Cursor

/-- What is put in the place of a wrapper stands for it. -/
theorem wrapperTarget?_spec {names : List Text} {receiver : Cursor}
    {target : Node} (hp : receiver.Placed) (hroot : receiver.root.node.Shaped)
    (hu : receiver.unparen = receiver)
    (h : receiver.wrapperTarget? names = .ok (some target)) :
    StandsFor names receiver target := by
  have hs : receiver.node.Shaped :=
    Cursor.shaped_of_mem_walk hroot hp.mem_walk_root
  unfold Cursor.wrapperTarget? at h
  obtain ⟨r, hr, h⟩ := bind_eq_ok.1 h
  cases r with
  | none => simp [pure_eq_ok] at h
  | some pc =>
      obtain ⟨p, call⟩ := pc
      simp only at h
      split at h
      · simp [pure_eq_ok] at h
      · next a ha =>
          rcases wrapperCall?_spec hr with ⟨rfl, rfl, hf⟩ | ⟨rfl, hk, init, hinit, rfl⟩
          · rw [hu] at hf ha
            simp only [beq_self_eq_true, if_true, pure_eq_ok,
              Option.some.injEq] at h
            subst h
            obtain ⟨-, -, b, hb⟩ := Cursor.isFactoryCall_spec hf
            rw [hu] at hb
            rw [hb, List.head?_cons] at ha
            obtain rfl := Option.some.inj ha
            exact standsFor_argument hs hu hf hb
          · have hne : (Provenance.bound == Provenance.direct) = false := rfl
            rw [hne] at h
            simp only [Bool.false_eq_true, if_false] at h
            obtain ⟨b, -, h⟩ := bind_eq_ok.1 h
            split at h
            · simp only [pure_eq_ok, Option.some.injEq] at h
              subst h
              rw [hu] at hk
              refine standsFor_identifier hs hk ?_ fun p => Node.listed_copy p _
              rw [Node.shaped_copy]
              have hwalk : a ∈ receiver.unparen.root.walk :=
                Cursor.mem_walk_trans (Cursor.resolve?_mem_walk hinit)
                  (Cursor.mem_walk_trans (Cursor.unparen_mem_walk init)
                    (Cursor.mem_walk_of_mem_arguments (List.mem_of_head? ha)))
              rw [hu] at hwalk
              exact Cursor.shaped_of_mem_walk hroot hwalk
            · simp [pure_eq_ok] at h

theorem idSelector?_eq_some {a : Cursor} {t : Text}
    (h : a.idSelector? = .ok (some t)) :
    ∃ u, a.node.stringValue = .ok (some u) ∧ isIdSelector u = true ∧ t = u.drop 1 := by
  unfold Cursor.idSelector? at h
  obtain ⟨v, hv, h⟩ := bind_eq_ok.1 h
  obtain ⟨u, hu, rfl⟩ := Option.map_eq_some_iff.1 (pure_eq_ok.1 h)
  obtain ⟨rfl, hid⟩ := Option.filter_eq_some_iff.1 hu
  exact ⟨u, hv, hid, rfl⟩

/-- An element looked up by its id stands for a wrapper of the
selector. -/
theorem standsFor_elementById {names : List Text} {receiver call arg : Cursor}
    {i : Text} (hs : receiver.node.Shaped) (hu : receiver.unparen = receiver)
    (hw : receiver.wrapperCall? names = .ok (some (.direct, call)))
    (harg : call.arguments.head? = some arg)
    (hid : arg.idSelector? = .ok (some i)) :
    StandsFor names receiver (elementById i) := by
  obtain ⟨u, hu', -⟩ := idSelector?_eq_some hid
  rcases wrapperCall?_spec hw with ⟨-, rfl, hf⟩ | ⟨h, -⟩
  · rw [hu] at hf harg
    obtain ⟨-, -, b, hb⟩ := Cursor.isFactoryCall_spec hf
    rw [hu] at hb
    rw [hb, List.head?_cons] at harg
    obtain rfl := Option.some.inj harg
    have hbs := Cursor.shaped_of_mem_arguments hs
      (by rw [hb]; exact List.mem_singleton.2 rfl)
    exact standsFor_fresh hs hu hf hb (Cursor.effects_of_stringValue hbs hu')
      (shaped_elementById i) fun p => listed_elementById p i
  · cases h

/-- The element that a rule works on stands for the receiver. -/
theorem receiverTarget?_spec {context : RuleContext} {m : Cursor}
    {target : Node} (hp : m.Placed) (hroot : m.root.node.Shaped)
    (h : receiverTarget? context m = .ok (some target)) :
    ∃ o, m.child? .object = some o
      ∧ StandsFor context.factoryNames o.unparen target := by
  unfold receiverTarget? at h
  simp only at h
  split at h
  · simp [pure_eq_ok] at h
  · next receiver hr =>
      obtain ⟨o, ho, rfl⟩ := Cursor.inner?_eq_some.1 hr
      refine ⟨o, ho, ?_⟩
      have hmem : o.unparen ∈ m.walk :=
        Cursor.mem_walk_trans (Cursor.mem_walk_of_child? ho)
          (Cursor.unparen_mem_walk o)
      have hp' : o.unparen.Placed := hp.of_mem_walk hmem
      have hroot' : o.unparen.root.node.Shaped := by
        rw [Cursor.root_of_mem_walk hmem]
        exact hroot
      have hs := Cursor.shaped_of_mem_walk hroot' hp'.mem_walk_root
      obtain ⟨w, hw, h⟩ := bind_eq_ok.1 h
      cases w with
      | none => simp [pure_eq_ok] at h
      | some pc =>
          obtain ⟨p, call⟩ := pc
          simp only at h
          split at h
          · simp [pure_eq_ok] at h
          · next arg harg =>
              obtain ⟨id, hid, h⟩ := bind_eq_ok.1 h
              generalize hus : (if id.isSome = true then _ else arg.isElement)
                = usable at h
              cases usable with
              | false => simp [pure_eq_ok] at h
              | true =>
                  simp only [Bool.not_true, Bool.false_eq_true, if_false] at h
                  cases id with
                  | none =>
                      refine wrapperTarget?_spec hp' hroot'
                        (Cursor.unparen_unparen o) ?_
                      split at h
                      · obtain ⟨b, -, h⟩ := bind_eq_ok.1 h
                        split at h
                        · simp [pure_eq_ok] at h
                        · exact h
                      · exact h
                  | some i =>
                      obtain rfl : elementById i = target := by
                        split at h
                        · obtain ⟨b, -, h⟩ := bind_eq_ok.1 h
                          split at h
                          · simp [pure_eq_ok] at h
                          · simpa [pure_eq_ok] using h
                        · simpa [pure_eq_ok] using h
                      cases p with
                      | direct =>
                          exact standsFor_elementById hs
                            (Cursor.unparen_unparen o) hw harg hid
                      | bound => cases hus
                      | unknown => cases hus

end Codemod
