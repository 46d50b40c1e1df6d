/-
Rewrites of comparisons with an index, and of older idioms.

A comparison that is rewritten has the index call on one side and
something without effects on the other, so its effects are those of the
call (`Compares.effects`). All but one keep them in order; `inArray` has
its value and its array exchanged (`keeps_inArray`).
-/
import Codemod.Proofs.Effect.Factory

namespace Codemod

-- ============================================================= comparisons

/-- An index call is compared with something, on either side. -/
structure Compares (c call other : Cursor) : Prop where
  kind : c.is .binaryExpression = true
  sides : ∃ l r, c.child? .left = some l ∧ c.child? .right = some r
    ∧ ((call = l.unparen ∧ other = r.unparen)
      ∨ (call = r.unparen ∧ other = l.unparen))

namespace Compares

variable {c call other : Cursor}

theorem unparen_other (h : Compares c call other) : other.unparen = other := by
  obtain ⟨l, r, -, -, ⟨-, rfl⟩ | ⟨-, rfl⟩⟩ := h.sides <;>
    exact Cursor.unparen_unparen _

theorem call_mem_walk (h : Compares c call other) : call ∈ c.walk := by
  obtain ⟨l, r, hl, hr, ⟨rfl, -⟩ | ⟨rfl, -⟩⟩ := h.sides
  · exact Cursor.mem_walk_trans (Cursor.mem_walk_of_child? hl)
      (Cursor.unparen_mem_walk l)
  · exact Cursor.mem_walk_trans (Cursor.mem_walk_of_child? hr)
      (Cursor.unparen_mem_walk r)

theorem other_mem_walk (h : Compares c call other) : other ∈ c.walk := by
  obtain ⟨l, r, hl, hr, ⟨-, rfl⟩ | ⟨-, rfl⟩⟩ := h.sides
  · exact Cursor.mem_walk_trans (Cursor.mem_walk_of_child? hr)
      (Cursor.unparen_mem_walk r)
  · exact Cursor.mem_walk_trans (Cursor.mem_walk_of_child? hl)
      (Cursor.unparen_mem_walk l)

theorem not_isMute (h : Compares c call other) : c.node.isMute = false := by
  obtain ⟨l, r, hl, -⟩ := h.sides
  exact Cursor.not_isMute_of_child? hl

/-- The effects of a comparison with something that has none. -/
theorem effects (h : Compares c call other) (hs : c.node.Shaped)
    (ho : other.node.effects = []) : c.node.effects = call.node.effects := by
  obtain ⟨l, r, hl, hr, hsides⟩ := h.sides
  have hls := Cursor.shaped_of_child? hs hl
  have hrs := Cursor.shaped_of_child? hs hr
  rw [Cursor.effects_parts hs.formed h.kind rfl (by decide),
    Cursor.ownListed_of_kind h.kind (by decide), List.filterMap_eq_flatMap_toList]
  simp only [List.flatMap_cons, List.flatMap_nil, List.append_nil, hl, hr,
    Option.toList_some, List.nil_append, List.singleton_append]
  rw [← Cursor.effects_unparen hls, ← Cursor.effects_unparen hrs]
  rcases hsides with ⟨rfl, rfl⟩ | ⟨rfl, rfl⟩
  · rw [ho, List.append_nil]
  · rw [ho, List.nil_append]

theorem listed (h : Compares c call other) (hs : c.node.Shaped)
    (p : Kind → Bool → Bool) :
    (call.node.listed p ++ other.node.listed p).Subperm (c.node.listed p) := by
  obtain ⟨l, r, hl, hr, hsides⟩ := h.sides
  have hboth : (l.unparen.node.listed p ++ r.unparen.node.listed p).Sublist
      (c.node.listed p) := by
    refine List.Sublist.trans (List.Sublist.append
      (Cursor.listed_unparen_sublist l p) (Cursor.listed_unparen_sublist r p)) ?_
    refine List.Sublist.trans ?_
      (Cursor.listed_parts hs.formed h.kind rfl (by decide) p)
    rw [List.filterMap_eq_flatMap_toList]
    simp [hl, hr]
  rcases hsides with ⟨rfl, rfl⟩ | ⟨rfl, rfl⟩
  · exact hboth.subperm
  · exact List.perm_append_comm.subperm.trans hboth.subperm

/-- A comparison has no template. -/
theorem templateEffects (h : Compares c call other) (hs : c.node.Shaped) :
    c.templateEffects = [] := by
  unfold Cursor.templateEffects Cursor.taggedTemplate?
  cases ha : c.child? .arguments with
  | none => rfl
  | some a =>
      simp only
      cases hk : a.is .arguments with
      | true => rfl
      | false =>
          have hmem := Cursor.node_mem_of_mem_children
            (Cursor.mem_children_of_child? ha)
          have hrole : a.node.role = some .arguments := by
            have := Cursor.map_node_child? c .arguments
            rw [ha, Option.map_some] at this
            simpa using List.find?_some this.symm
          have hkind : c.node.kind = .symbol .binaryExpression := by
            simpa [Cursor.is, Node.is] using h.kind
          refine Node.effects_of_isMute
            ((hs.formed.parts _ _ hkind rfl).others a.node hmem ?_)
          rw [Node.standsIn, hrole]
          rfl

theorem indexCall? (h : Compares c call other)
    (hcall : call.isIndexCall = true) (hother : other.isIndexCall = false) :
    c.indexCall? = some call := by
  obtain ⟨l, r, hl, hr, hsides⟩ := h.sides
  have hil : c.inner? .left = some l.unparen := Cursor.inner?_eq_some.2 ⟨l, hl, rfl⟩
  have hir : c.inner? .right = some r.unparen := Cursor.inner?_eq_some.2 ⟨r, hr, rfl⟩
  rw [Cursor.indexCall?, h.kind, hil, hir]
  rcases hsides with ⟨rfl, rfl⟩ | ⟨rfl, rfl⟩
  · simp [Option.filter, hcall]
  · simp [Option.filter, hcall, hother]

end Compares

/-- The parts of a comparison. -/
theorem comparison?_eq_some {c left right : Cursor} {op : Text}
    (h : c.comparison? = some (left, op, right)) :
    Compares c left right ∧ Compares c right left := by
  unfold Cursor.comparison? at h
  split at h
  · cases h
  · next hk =>
      split at h
      · next l o r hl ho hr =>
          obtain ⟨rfl, rfl, rfl⟩ : l = left ∧ o.code = op ∧ r = right := by
            simpa using h
          obtain ⟨l', hl', rfl⟩ := Cursor.inner?_eq_some.1 hl
          obtain ⟨r', hr', rfl⟩ := Cursor.inner?_eq_some.1 hr
          have hk' : c.is .binaryExpression = true := by simpa using hk
          exact ⟨⟨hk', l', r', hl', hr', Or.inl ⟨rfl, rfl⟩⟩,
            ⟨hk', l', r', hl', hr', Or.inr ⟨rfl, rfl⟩⟩⟩
      · cases h

/-- A test for presence compares an index call with a number. -/
theorem presenceCheck_spec {c call : Cursor} {negated : Bool}
    {isIndexCall : Cursor → Check Bool}
    (h : c.presenceCheck isIndexCall = .ok (some (call, negated))) :
    ∃ other k, Compares c call other ∧ isIndexCall call = .ok true
      ∧ other.integerValue = .ok (some k) := by
  unfold Cursor.presenceCheck at h
  split at h
  · simp [pure_eq_ok] at h
  · next left op right hcmp =>
      obtain ⟨hlr, hrl⟩ := comparison?_eq_some hcmp
      obtain ⟨b, hb, h⟩ := bind_eq_ok.1 h
      cases b with
      | true =>
          simp only [if_true] at h
          obtain ⟨k, hk, h⟩ := bind_eq_ok.1 h
          cases k with
          | none => simp [pure_eq_ok] at h
          | some k =>
              simp only [pure_eq_ok] at h
              obtain ⟨b, -, heq⟩ := Option.map_eq_some_iff.1 h
              obtain ⟨rfl, -⟩ := Prod.mk.inj heq
              exact ⟨right, k, hlr, hb, hk⟩
      | false =>
          simp only [Bool.false_eq_true, if_false] at h
          obtain ⟨b, hb, h⟩ := bind_eq_ok.1 h
          cases b with
          | false => simp [pure_eq_ok] at h
          | true =>
              simp only [if_true] at h
              obtain ⟨k, hk, h⟩ := bind_eq_ok.1 h
              cases k with
              | none => simp [pure_eq_ok] at h
              | some k =>
                  simp only [pure_eq_ok] at h
                  obtain ⟨b, -, heq⟩ := Option.map_eq_some_iff.1 h
                  obtain ⟨rfl, -⟩ := Prod.mk.inj heq
                  exact ⟨left, k, hrl, hb, hk⟩

/-- A test for equality compares a call with something. -/
theorem equalityCheck_spec {c call other : Cursor} {negated : Bool}
    {isCall : Cursor → Check Bool}
    (h : c.equalityCheck isCall = .ok (some (call, other, negated))) :
    Compares c call other ∧ isCall call = .ok true := by
  unfold Cursor.equalityCheck at h
  split at h
  · simp [pure_eq_ok] at h
  · next left op right hcmp =>
      obtain ⟨hlr, hrl⟩ := comparison?_eq_some hcmp
      split at h
      · simp [pure_eq_ok] at h
      · obtain ⟨b, hb, h⟩ := bind_eq_ok.1 h
        cases b with
        | true =>
            simp only [if_true, pure_eq_ok, Option.some.injEq, Prod.mk.injEq] at h
            obtain ⟨rfl, rfl, -⟩ := h
            exact ⟨hlr, hb⟩
        | false =>
            simp only [Bool.false_eq_true, if_false] at h
            obtain ⟨b, hb, h⟩ := bind_eq_ok.1 h
            cases b with
            | false => simp [pure_eq_ok] at h
            | true =>
                simp only [if_true, pure_eq_ok, Option.some.injEq,
                  Prod.mk.injEq] at h
                obtain ⟨rfl, rfl, -⟩ := h
                exact ⟨hrl, hb⟩

-- ================================================================ literals

namespace Cursor

variable {c : Cursor}

theorem isIndexCall_of_kind {s : Symbol} (hk : c.is s = true)
    (hs : s ≠ .callExpression) : c.isIndexCall = false := by
  have hcall : c.is .callExpression = false := by
    have hkind : c.node.kind = .symbol s := by
      simpa [Cursor.is, Node.is] using hk
    rw [Cursor.is, Node.is, hkind]
    simpa using hs
  rw [isIndexCall, calledName?, hcall]
  rfl

theorem effects_digitsValue {k : Nat} (hs : c.node.Shaped)
    (h : c.digitsValue = .ok (some k)) :
    c.node.effects = [] ∧ c.is .number = true := by
  unfold digitsValue at h
  split at h
  · next hk =>
      simp only [Bool.and_eq_true] at hk
      exact ⟨effects_number hs hk.1.1, hk.1.1⟩
  · cases h

/-- A number, possibly negated, has no effects and is no call. -/
theorem effects_integerValue {k : Int} (hs : c.node.Shaped)
    (h : c.integerValue = .ok (some k)) :
    c.node.effects = [] ∧ c.unparen.isIndexCall = false := by
  have hes : c.unparen.node.Shaped :=
    shaped_of_mem_walk hs (unparen_mem_walk c)
  rw [← effects_unparen hs]
  unfold integerValue at h
  simp only at h
  split at h
  · next hk =>
      split at h
      · next op a hop ha =>
          split at h
          · obtain ⟨d, hd, h⟩ := bind_eq_ok.1 h
            cases d with
            | none => simp [pure_eq_ok] at h
            | some d =>
                obtain ⟨e, he, rfl⟩ := inner?_eq_some.1 ha
                have hesh := shaped_of_child? hes he
                have heff := (effects_digitsValue
                  (shaped_of_mem_walk hesh (unparen_mem_walk e)) hd).1
                rw [effects_unparen hesh] at heff
                refine ⟨?_, isIndexCall_of_kind hk (by decide)⟩
                rw [effects_parts hes.formed hk rfl (by decide),
                  ownListed_of_kind hk (by decide)]
                simp [he, heff]
          · simp [pure_eq_ok] at h
      · simp [pure_eq_ok] at h
  · obtain ⟨d, hd, h⟩ := bind_eq_ok.1 h
    cases d with
    | none => simp [pure_eq_ok] at h
    | some d =>
        obtain ⟨heff, hk⟩ := effects_digitsValue hes hd
        exact ⟨heff, isIndexCall_of_kind hk (by decide)⟩

/-- The receiver of a method call, parentheses taken off. -/
theorem methodReceiver?_eq_some {names : List String} {r : Cursor}
    (h : c.methodReceiver? names = some r) :
    c.is .callExpression = true ∧ ∃ m name o,
      c.calledMember? = some (m, name) ∧ name.isOneOf names = true
        ∧ m.child? .object = some o ∧ r = o.unparen := by
  unfold methodReceiver? at h
  split at h
  · cases h
  · next hk =>
      split at h
      · cases h
      · next m hm =>
          split at h
          · cases h
          · split at h
            · next name hname =>
                split at h
                · next hone =>
                    obtain ⟨o, ho, rfl⟩ := inner?_eq_some.1 h
                    refine ⟨by simpa using hk, m, name, o, ?_, hone, ho, rfl⟩
                    simp [calledMember?, hm, hname]
                · cases h
            · cases h

/-- What is evidently a string is a literal or a call. -/
theorem isAny_of_isString (h : c.isString = true) :
    c.unparen.isAny [.string, .templateString, .callExpression] = true := by
  unfold isString at h
  cases hsize : c.node.size with
  | zero => rw [hsize] at h; cases h
  | succ fuel =>
      rw [hsize, isStringWithin] at h
      split at h
      · next hany =>
          obtain ⟨s, hs, hk⟩ := Node.isAny_iff.1 hany
          exact Node.isAny_iff.2 ⟨s, by simp at hs ⊢; tauto, hk⟩
      · split at h
        · next r hr =>
            refine Node.isAny_iff.2 ⟨.callExpression, by decide, ?_⟩
            exact Node.is_iff.1 (methodReceiver?_eq_some hr).1
        · cases h

end Cursor

-- ============================================================= old idioms

/-- A rule for the nodes of one kind keeps effects where its test does. -/
theorem Sweep.keeps_ofKind {s : Symbol} {f : Cursor → Check (Option Node)}
    (h : ∀ names c new, c.Stands → c.is s = true → f c = .ok (some new) →
      Kept names c new) : (Sweep.ofKind s f).Keeps s :=
  ⟨fun _ hc => hc, fun context c new hc hk hr => h context.factoryNames c new hc hk hr⟩

namespace Rules

theorem keeps_power : power.Keeps := by
  refine Rule.keeps_ofSweeps (by decide) (Sweep.keeps_ofKind ?_)
  intro names c new hc hk h
  split at h
  · simp [pure_eq_ok] at h
  · next m name hm =>
      obtain ⟨-, h⟩ := unless_eq_ok.1 h
      cases ho : m.child? .object with
      | none => simp [ho, pure_eq_ok] at h
      | some o =>
          simp only [ho] at h
          obtain ⟨hmath, h⟩ := unless_eq_ok.1 h
          split at h
          · next base exponent hargs =>
              obtain rfl := some_eq_of_ok h
              have hos := (hc.of_mem_walk (Cursor.mem_walk_trans
                (Cursor.calledMember_mem_walk hm)
                (Cursor.mem_walk_of_child? ho))).node
              have hident : o.is .identifier = true := by
                simp only [Node.isIdentifier, Bool.or_eq_false_iff,
                  Bool.not_eq_false', Bool.and_eq_true] at hmath
                exact hmath.1.1.1
              have hshape := hc.arguments
              rw [hargs] at hshape
              refine kept_of_object hc.node hk hm ho
                (Build.shaped_binary (hshape _ (by simp)) (hshape _ (by simp)))
                (fun p => ?_) ?_ (List.forall_mem_nil _)
              · rw [hargs, Build.listed_binary]
                simp only [List.flatMap_cons, List.flatMap_nil, List.append_nil]
                exact (List.sublist_append_right _ _).subperm
              · rw [hargs, Cursor.effects_identifier hos hident, Node.effects,
                  Build.listed_binary]
                simp [Node.effects]
          · simp [pure_eq_ok] at h

theorem keeps_substr : substr.Keeps := by
  refine Rule.keeps_ofSweeps (by decide) (Sweep.keeps_ofKind ?_)
  intro names c new hc hk h
  split at h
  · simp [pure_eq_ok] at h
  · next receiver hr =>
      obtain ⟨-, m, name, o, hm, -, ho, rfl⟩ := Cursor.methodReceiver?_eq_some hr
      obtain ⟨-, h⟩ := unless_eq_ok.1 h
      have hos := (hc.of_mem_walk (Cursor.mem_walk_trans
        (Cursor.calledMember_mem_walk hm) (Cursor.mem_walk_of_child? ho))).node
      have hus := Cursor.shaped_of_mem_walk hos (Cursor.unparen_mem_walk o)
      have hshape := hc.arguments
      -- what is kept of the arguments
      obtain ⟨args, kept, rfl, hargs, hlisted, hkept, heff⟩ :
          ∃ (args : List Node) (kept : List Cursor),
            Build.methodCall o.unparen.node "slice" args = new
            ∧ (∀ a ∈ args, a.Shaped)
            ∧ (∀ p, args.flatMap (Node.listed p)
              = kept.flatMap (·.node.listed p))
            ∧ kept.Sublist c.arguments
            ∧ kept.flatMap (·.node.effects)
              = c.arguments.flatMap (·.node.effects) := by
        split at h
        · next hargs =>
            exact ⟨[], [], some_eq_of_ok h, by simp, by simp, by simp, by simp [hargs]⟩
        · next start hargs =>
            rw [hargs] at hshape
            exact ⟨[start.node], [start], some_eq_of_ok h, hshape, by simp,
              by simp [hargs], by simp [hargs]⟩
        · next start length hargs =>
            rw [hargs] at hshape
            obtain ⟨a, ha, h⟩ := bind_eq_ok.1 h
            obtain ⟨b, hb, h⟩ := bind_eq_ok.1 h
            split at h
            · next a b =>
                split at h
                · simp [pure_eq_ok] at h
                · obtain ⟨x, -, h⟩ := bind_eq_ok.1 h
                  obtain ⟨y, -, h⟩ := bind_eq_ok.1 h
                  have h1 := (Cursor.effects_integerValue (hshape _ (by simp)) ha).1
                  have h2 := (Cursor.effects_integerValue (hshape _ (by simp)) hb).1
                  refine ⟨_, [], some_eq_of_ok h, ?_, by simp, by simp,
                    by simp [hargs, h1, h2]⟩
                  intro n hn
                  simp only [List.mem_cons, List.not_mem_nil, or_false] at hn
                  rcases hn with rfl | rfl <;> exact Node.shaped_leaf _ _
            · simp [pure_eq_ok] at h
        · simp [pure_eq_ok] at h
      refine kept_of_object hc.node hk hm ho (Build.shaped_methodCall hus hargs)
        (fun p => ?_) ?_ (List.forall_mem_nil _)
      · rw [Build.listed_methodCall, hlisted]
        exact (List.Sublist.append (Cursor.listed_unparen_sublist o p)
          (hkept.flatMap _)).subperm
      · have hnew : (Build.methodCall o.unparen.node "slice" args).effects
            = o.unparen.node.effects ++ kept.flatMap (·.node.effects) := by
          rw [Node.effects, Build.listed_methodCall, hlisted]
          rfl
        rw [hnew, ← heff, Cursor.effects_unparen hos, List.nil_append]

theorem keeps_arrayFrom : arrayFrom.Keeps := by
  refine Rule.keeps_ofSweeps (by decide) (Sweep.keeps_ofKind ?_)
  intro names c new hc hk h
  split at h
  · next receiver arg hr hargs =>
      obtain ⟨-, m, name, o, hm, -, ho, rfl⟩ := Cursor.methodReceiver?_eq_some hr
      obtain ⟨harray, h⟩ := unless_eq_ok.1 h
      obtain ⟨-, h⟩ := unless_eq_ok.1 h
      obtain rfl := some_eq_of_ok h
      have hos := (hc.of_mem_walk (Cursor.mem_walk_trans
        (Cursor.calledMember_mem_walk hm) (Cursor.mem_walk_of_child? ho))).node
      have hident : o.unparen.node.isIdentifier "Array" = true := by
        simp only [Bool.or_eq_false_iff, Bool.not_eq_false'] at harray
        exact harray.1
      have hshape := hc.arguments
      rw [hargs] at hshape
      refine kept_of_object hc.node hk hm ho (Build.shaped_array ?_)
        (fun p => ?_) ?_ (List.forall_mem_nil _)
      · simpa using Build.shaped_spread (hshape _ (by simp))
      · rw [hargs, Build.listed_array]
        simp only [List.flatMap_cons, List.flatMap_nil, List.append_nil,
          Build.listed_spread]
        exact (List.sublist_append_right _ _).subperm
      · rw [hargs, effects_of_isIdentifier hos hident, Node.effects,
          Build.listed_array]
        simp [Node.effects]
  · simp [pure_eq_ok] at h

end Rules

-- ========================================================= tests for presence

variable {names : List Text} {c call other m o : Cursor} {name : Text}
  {new : Node}

/-- The name of a method, when it is one of those that are compared. -/
theorem Cursor.isIndexCall_of_calledMember (hk : call.is .callExpression = true)
    (hm : call.calledMember? = some (m, name))
    (hone : name.isOneOf Cursor.indexMethods = true) :
    call.isIndexCall = true ∧ call.calledName? = some name := by
  have hname : call.calledName? = some name := by
    rw [Cursor.calledName?, if_pos hk, hm]
    rfl
  exact ⟨by rw [Cursor.isIndexCall, hname]; exact hone, hname⟩

/-- The effects of a comparison: the index call, then its object and its
arguments. -/
theorem Compares.effects_call {a : Cursor} {as : List Cursor}
    (h : Compares c call other) (hs : c.node.Shaped)
    (hother : other.node.effects = []) (hk : call.is .callExpression = true)
    (hm : call.calledMember? = some (m, name)) (ho : m.child? .object = some o)
    (hargs : call.arguments = a :: as) :
    c.node.effects = call.node.ownListed isEffectKind
      ++ (o.node.effects ++ call.arguments.flatMap (·.node.effects)) := by
  obtain ⟨hinner, hprop⟩ := Cursor.calledMember?_eq_some hm
  have hcs := Cursor.shaped_of_mem_walk hs h.call_mem_walk
  rw [h.effects hs hother, Cursor.effects_methodCall hcs hk hinner
    (Cursor.is_of_propertyName? hprop) ho,
    Cursor.templateEffects_of_arguments hargs, List.append_nil]

theorem Compares.own_mem_spent {i : Nat} (h : Compares c call other)
    (hcall : call.isIndexCall = true) (hother : other.isIndexCall = false)
    (hi : i ∈ call.node.ownListed isEffectKind) : i ∈ c.spent names := by
  have hmem := ownListed_subset _ _ i hi
  simp only [Cursor.spent, List.mem_append, h.indexCall? hcall hother]
  exact Or.inl (Or.inr hmem)

/-- What the object and the arguments of the index call list, the
comparison lists. -/
theorem Compares.listed_call (h : Compares c call other) (hs : c.node.Shaped)
    (hk : call.is .callExpression = true)
    (hm : call.calledMember? = some (m, name)) (ho : m.child? .object = some o)
    (p : Kind → Bool → Bool) :
    ((o.node.listed p ++ call.arguments.flatMap (·.node.listed p))
      ++ other.node.listed p).Subperm (c.node.listed p) := by
  have hcs := Cursor.shaped_of_mem_walk hs h.call_mem_walk
  refine List.Subperm.trans (List.Sublist.subperm ?_) (h.listed hs p)
  exact List.Sublist.append (Cursor.listed_methodCall_sublist hcs hk
    (Cursor.calledMember?_eq_some hm).1 ho p) (List.Sublist.refl _)

/-- The object and the arguments of the index call are parts of the
comparison. -/
theorem Compares.parts_mem_walk {a : Cursor} (h : Compares c call other)
    (hm : call.calledMember? = some (m, name)) (ho : m.child? .object = some o)
    (ha : a ∈ call.arguments) : o ∈ c.walk ∧ a ∈ c.walk :=
  ⟨Cursor.mem_walk_trans h.call_mem_walk (Cursor.mem_walk_trans
    (Cursor.calledMember_mem_walk hm) (Cursor.mem_walk_of_child? ho)),
    Cursor.mem_walk_trans h.call_mem_walk (Cursor.mem_walk_of_mem_arguments ha)⟩

/-- A method call with one argument, made of parts of the comparison,
separates nothing. -/
theorem steady_methodCall {obj arg : Node} {negated : Bool} {method : Text}
    (hobj : obj ∈ c.node.walk) (harg : arg ∈ c.node.walk) (i j : Nat)
    (h : (Build.negatedIf negated
      (Build.methodCall obj method [arg])).Splits i j) : c.node.Splits i j := by
  rw [Build.splits_negatedIf, Build.splits_methodCall_one] at h
  rcases h with h | h
  · exact h.of_mem_walk hobj
  · exact h.of_mem_walk harg

/-- A comparison of an index call whose object and arguments are kept in
order. -/
theorem kept_of_comparison {obj arg : Node} {negated : Bool} {method : Text}
    {a : Cursor} {as : List Cursor}
    (h : Compares c call other) (hs : c.node.Shaped)
    (hother : other.node.effects = []) (hno : other.isIndexCall = false)
    (hk : call.is .callExpression = true)
    (hm : call.calledMember? = some (m, name))
    (hone : name.isOneOf Cursor.indexMethods = true)
    (hin : name ≠ Text.ofString "inArray") (ho : m.child? .object = some o)
    (hargs : call.arguments = a :: as) (hobj : obj ∈ c.node.walk)
    (harg : arg ∈ c.node.walk)
    (hlisted : ∀ p, (obj.listed p ++ arg.listed p).Subperm
      ((o.node.listed p ++ call.arguments.flatMap (·.node.listed p))
        ++ other.node.listed p))
    (heff : obj.effects ++ arg.effects
      = o.node.effects ++ call.arguments.flatMap (·.node.effects)) :
    Kept names c
      (Build.negatedIf negated (Build.methodCall obj method [arg])) := by
  have hnew : ∀ p, (Build.negatedIf negated
      (Build.methodCall obj method [arg])).listed p
        = obj.listed p ++ arg.listed p := by
    intro p
    simp
  have hshape : (Build.negatedIf negated
      (Build.methodCall obj method [arg])).Shaped :=
    Build.shaped_negatedIf (Build.shaped_methodCall (hs.of_mem_walk hobj)
      (by simpa using hs.of_mem_walk harg))
  obtain ⟨hcall, hname⟩ := Cursor.isIndexCall_of_calledMember hk hm hone
  have hswap : c.swapped? = none := by
    rw [Cursor.swapped?, h.indexCall? hcall hno]
    simp [hname, hin]
  refine kept_of_effects hshape h.not_isMute (fun p => ?_) ?_
    (fun i => h.own_mem_spent hcall hno) hswap
    fun _ => steady_methodCall hobj harg
  · rw [hnew]
    exact (hlisted p).trans (h.listed_call hs hk hm ho p)
  · have hneweff : (Build.negatedIf negated
        (Build.methodCall obj method [arg])).effects
          = obj.effects ++ arg.effects := hnew isEffectKind
    rw [h.effects_call hs hother hk hm ho hargs, h.templateEffects hs,
      List.append_nil, hneweff, heff]

namespace Rules

/-- A method with the one given name is compared, and is not
`inArray`. -/
theorem isOneOf_indexMethods {w : String} (h : name.isOneOf [w] = true)
    (hw : w ∈ ["indexOf", "substring"]) :
    name.isOneOf Cursor.indexMethods = true ∧ name ≠ Text.ofString "inArray" := by
  obtain rfl : Text.ofString w = name := by simpa [Text.isOneOf] using h
  revert w
  decide

/-- An `indexOf` call has a receiver and one argument. -/
theorem isIndexOfCall_spec (h : call.isIndexOfCall = true) :
    ∃ r arg, call.methodReceiver? ["indexOf"] = some r
      ∧ call.arguments = [arg] := by
  unfold Cursor.isIndexOfCall at h
  split at h
  · next r arg hr hargs => exact ⟨r, arg, hr, hargs⟩
  · cases h

theorem isStringIndexOfCall_spec (h : call.isStringIndexOfCall = true) :
    ∃ r arg, call.methodReceiver? ["indexOf"] = some r
      ∧ call.arguments = [arg] := by
  unfold Cursor.isStringIndexOfCall at h
  split at h
  · next r arg hr hargs => exact ⟨r, arg, hr, hargs⟩
  · cases h

theorem keeps_includes : includes.Keeps := by
  refine Rule.keeps_ofSweeps (by decide) (Sweep.keeps_ofKind ?_)
  intro names c new hc hk h
  obtain ⟨r, hr, h⟩ := bind_eq_ok.1 h
  split at h
  · simp [pure_eq_ok] at h
  · next call negated =>
      obtain ⟨other, k, hcmp, hidx, hint⟩ := presenceCheck_spec hr
      have hos := (hc.of_mem_walk hcmp.other_mem_walk).node
      obtain ⟨hother, hno⟩ := Cursor.effects_integerValue hos hint
      rw [hcmp.unparen_other] at hno
      obtain ⟨r, arg, hrecv, hargs⟩ := isIndexOfCall_spec (pure_eq_ok.1 hidx)
      obtain ⟨hck, m, name, o, hm, hone, ho, -⟩ :=
        Cursor.methodReceiver?_eq_some hrecv
      obtain ⟨hone', hin⟩ := isOneOf_indexMethods hone (by simp)
      rw [(Cursor.calledMember?_eq_some hm).1, Option.bind_some, ho, hargs] at h
      obtain rfl := some_eq_of_ok h
      obtain ⟨hobj, harg⟩ := hcmp.parts_mem_walk hm ho
        (by rw [hargs]; exact List.mem_singleton.2 rfl)
      refine kept_of_comparison hcmp hc.node hother hno hck hm hone' hin ho hargs
        (Cursor.node_mem_walk hobj) (Cursor.node_mem_walk harg) (fun p => ?_) ?_
      · rw [hargs, List.flatMap_singleton]
        exact (List.sublist_append_left _ _).subperm
      · rw [hargs, List.flatMap_singleton]

theorem keeps_startsWithIndex : startsWithIndex.Keeps := by
  refine Rule.keeps_ofSweeps (by decide) (Sweep.keeps_ofKind ?_)
  intro names c new hc hk h
  obtain ⟨r, hr, h⟩ := bind_eq_ok.1 h
  split at h
  · simp [pure_eq_ok] at h
  · next call other negated =>
      obtain ⟨hcmp, hidx⟩ := equalityCheck_spec hr
      obtain ⟨k, hint, h⟩ := bind_eq_ok.1 h
      obtain ⟨hk0, h⟩ := unless_eq_ok.1 h
      obtain rfl : k = some 0 := by simpa using hk0
      have hos := (hc.of_mem_walk hcmp.other_mem_walk).node
      obtain ⟨hother, hno⟩ := Cursor.effects_integerValue hos hint
      rw [hcmp.unparen_other] at hno
      obtain ⟨r, arg, hrecv, hargs⟩ := isStringIndexOfCall_spec (pure_eq_ok.1 hidx)
      rw [hrecv] at h
      obtain rfl := some_eq_of_ok h
      obtain ⟨hck, m, name, o, hm, hone, ho, rfl⟩ :=
        Cursor.methodReceiver?_eq_some hrecv
      obtain ⟨hone', hin⟩ := isOneOf_indexMethods hone (by simp)
      rw [hargs]
      obtain ⟨hobj, harg⟩ := hcmp.parts_mem_walk hm ho
        (by rw [hargs]; exact List.mem_singleton.2 rfl)
      have hobjs := (hc.of_mem_walk hobj).node
      refine kept_of_comparison hcmp hc.node hother hno hck hm hone' hin ho hargs
        (Cursor.node_mem_walk (Cursor.mem_walk_trans hobj
          (Cursor.unparen_mem_walk o))) (Cursor.node_mem_walk harg)
        (fun p => ?_) ?_
      · rw [hargs, List.flatMap_singleton]
        refine List.Sublist.subperm ?_
        refine List.Sublist.trans ?_ (List.sublist_append_left _ _)
        exact List.Sublist.append (Cursor.listed_unparen_sublist o p)
          (List.Sublist.refl _)
      · rw [hargs, List.flatMap_singleton, Cursor.effects_unparen hobjs]

/-- A `substring` call that takes the start of its receiver. -/
theorem isStartCall_spec (h : call.isStartCall = .ok true) :
    ∃ r first finish, call.methodReceiver? ["substring"] = some r
      ∧ call.arguments = [first, finish]
      ∧ first.integerValue = .ok (some 0) := by
  unfold Cursor.isStartCall at h
  split at h
  · next r first finish hr hargs =>
      split at h
      · simp [pure_eq_ok] at h
      · obtain ⟨k, hk, h⟩ := bind_eq_ok.1 h
        obtain rfl : k = some 0 := by simpa [pure_eq_ok] using h
        exact ⟨r, first, finish, hr, hargs, hk⟩
  · simp [pure_eq_ok] at h

theorem isIndexCall_of_stringValue {start : Cursor} {v : Text}
    (h : start.node.stringValue = .ok (some v)) : start.isIndexCall = false := by
  unfold Node.stringValue at h
  split at h
  · cases h
  · next hk =>
      have hany : start.node.isAny [.string, .templateString] = true := by
        simpa using hk
      obtain ⟨s, hs, hk⟩ := List.any_eq_true.1 hany
      have hne : ∀ s ∈ [Symbol.string, .templateString], s ≠ .callExpression := by
        decide
      exact Cursor.isIndexCall_of_kind hk (hne s hs)

/-- The length of a string has no effects, nor has the string. -/
theorem isLengthOf_spec {finish start : Cursor} (hf : finish.node.Shaped)
    (hs : start.node.Shaped) (h : finish.isLengthOf start = .ok true) :
    finish.node.effects = [] ∧ start.node.effects = []
      ∧ start.isIndexCall = false := by
  have hfu := Cursor.shaped_of_mem_walk hf (Cursor.unparen_mem_walk finish)
  rw [← Cursor.effects_unparen hf]
  unfold Cursor.isLengthOf at h
  simp only at h
  obtain ⟨v, hv, h⟩ := bind_eq_ok.1 h
  cases v with
  | some v =>
      obtain ⟨n, hn, h⟩ := bind_eq_ok.1 h
      obtain ⟨u, -, h⟩ := bind_eq_ok.1 h
      obtain rfl : n = some (Int.ofNat u) := by simpa [pure_eq_ok] using h
      exact ⟨(Cursor.effects_integerValue hfu hn).1,
        Cursor.effects_of_stringValue hs hv, isIndexCall_of_stringValue hv⟩
  | none =>
      simp only at h
      split at h
      · simp [pure_eq_ok] at h
      · next hident =>
          split at h
          · simp [pure_eq_ok] at h
          · next hlength =>
              have hprop : finish.unparen.node.propertyName?
                  = some (Text.ofString "length") := by simpa using hlength
              split at h
              · next o init ho _ =>
                  simp only [pure_eq_ok, Bool.and_eq_true, Node.isIdentifier] at h
                  have hk : start.is .identifier = true := by
                    simp only [Bool.or_eq_true, Bool.not_eq_true', not_or,
                      Bool.not_eq_false] at hident
                    exact hident.1
                  refine ⟨?_, Cursor.effects_identifier hs hk,
                    Cursor.isIndexCall_of_kind hk (by decide)⟩
                  rw [Cursor.effects_member hfu (Cursor.is_of_propertyName? hprop),
                    ho]
                  have := Cursor.effects_identifier
                    (Cursor.shaped_of_child? hfu ho) h.1.1
                  simp [this]
              · simp [pure_eq_ok] at h

theorem keeps_startsWithPart : startsWithPart.Keeps := by
  refine Rule.keeps_ofSweeps (by decide) (Sweep.keeps_ofKind ?_)
  intro names c new hc hk h
  obtain ⟨r, hr, h⟩ := bind_eq_ok.1 h
  split at h
  · simp [pure_eq_ok] at h
  · next call start negated =>
      obtain ⟨hcmp, hidx⟩ := equalityCheck_spec hr
      obtain ⟨r, first, finish, hrecv, hargs, hfirst⟩ := isStartCall_spec hidx
      rw [hargs, hrecv] at h
      obtain ⟨b, hlen, h⟩ := bind_eq_ok.1 h
      obtain ⟨hb, h⟩ := unless_eq_ok.1 h
      obtain rfl : b = true := by simpa using hb
      obtain rfl := some_eq_of_ok h
      have hcs := hc.of_mem_walk hcmp.call_mem_walk
      have hss := (hc.of_mem_walk hcmp.other_mem_walk).node
      have hshape := hcs.arguments
      rw [hargs] at hshape
      obtain ⟨hfinish, hstart, hno⟩ :=
        isLengthOf_spec (hshape _ (by simp)) hss hlen
      have hzero := (Cursor.effects_integerValue (hshape _ (by simp)) hfirst).1
      obtain ⟨hck, m, name, o, hm, hone, ho, rfl⟩ :=
        Cursor.methodReceiver?_eq_some hrecv
      obtain ⟨hone', hin⟩ := isOneOf_indexMethods hone (by simp)
      obtain ⟨hobj, -⟩ := hcmp.parts_mem_walk hm ho
        (by rw [hargs]; exact List.mem_cons_self)
      have hobjs := (hc.of_mem_walk hobj).node
      refine kept_of_comparison hcmp hc.node hstart hno hck hm hone' hin ho hargs
        (Cursor.node_mem_walk (Cursor.mem_walk_trans hobj
          (Cursor.unparen_mem_walk o)))
        (Cursor.node_mem_walk hcmp.other_mem_walk) (fun p => ?_) ?_
      · refine List.Sublist.subperm
          (List.Sublist.append ?_ (List.Sublist.refl _))
        exact (Cursor.listed_unparen_sublist o p).trans
          (List.sublist_append_left _ _)
      · rw [hargs, Cursor.effects_unparen hobjs]
        simp [hzero, hfinish, hstart]

-- ======================================================= value and array

/-- An `inArray` call of the factory has a value and an array. -/
theorem isInArrayCall_spec (h : call.isInArrayCall names = .ok true) :
    call.is .callExpression = true ∧ ∃ m o value array,
      call.calledMember? = some (m, Text.ofString "inArray")
        ∧ m.child? .object = some o ∧ o.isFactoryIdentifier names = .ok true
        ∧ call.arguments = [value, array] := by
  unfold Cursor.isInArrayCall at h
  split at h
  · simp [pure_eq_ok] at h
  · next hk =>
      split at h
      · simp [pure_eq_ok] at h
      · next m hm =>
          split at h
          · simp [pure_eq_ok] at h
          · next hname =>
              split at h
              · simp [pure_eq_ok] at h
              · next o ho =>
                  obtain ⟨b, hb, h⟩ := bind_eq_ok.1 h
                  cases b with
                  | false => simp [pure_eq_ok] at h
                  | true =>
                      simp only [Bool.not_true, Bool.false_eq_true, if_false] at h
                      split at h
                      · next value array hargs =>
                          simp only [Bool.or_eq_true, Bool.not_eq_true',
                            not_or, Bool.not_eq_false] at hk hname
                          have hprop : m.node.propertyName?
                              = some (Text.ofString "inArray") := by
                            simpa using hname.1
                          refine ⟨hk.1, m, o, value, array, ?_, ho, hb, hargs⟩
                          simp [Cursor.calledMember?, hm, hprop]
                      · simp [pure_eq_ok] at h

/-- The array is evaluated before the value. -/
theorem kept_of_exchange {other value array : Cursor} {negated : Bool}
    (hc : c.Stands) (hcmp : Compares c call other)
    (hother : other.node.effects = []) (hno : other.isIndexCall = false)
    (hck : call.is .callExpression = true)
    (hm : call.calledMember? = some (m, Text.ofString "inArray"))
    (ho : m.child? .object = some o)
    (hfactory : o.isFactoryIdentifier names = .ok true)
    (hargs : call.arguments = [value, array]) :
    Kept names c (Build.negatedIf negated
      (Build.methodCall array.node "includes" [value.node])) := by
  obtain ⟨hcall, hname⟩ := Cursor.isIndexCall_of_calledMember hck hm (by decide)
  have hcs := hc.of_mem_walk hcmp.call_mem_walk
  have hobj := Cursor.shaped_of_child?
    (hcs.of_mem_walk (Cursor.calledMember_mem_walk hm)).node ho
  have hshape := hcs.arguments
  rw [hargs] at hshape
  have hswap : c.swapped? = some (value, array) := by
    rw [Cursor.swapped?, hcmp.indexCall? hcall hno]
    simp [hname, hargs]
  have heff := hcmp.effects_call hc.node hother hck hm ho hargs
  rw [Cursor.effects_of_isFactoryIdentifier hobj hfactory, hargs] at heff
  simp only [List.flatMap_cons, List.flatMap_nil, List.append_nil,
    List.nil_append] at heff
  have hnew : ∀ p, (Build.negatedIf negated (Build.methodCall array.node
      "includes" [value.node])).listed p
      = array.node.listed p ++ value.node.listed p := by
    intro p
    simp
  obtain ⟨-, hvalue⟩ := hcmp.parts_mem_walk hm ho
    (by rw [hargs]; exact List.mem_cons_self)
  obtain ⟨-, harray⟩ := hcmp.parts_mem_walk hm ho
    (by rw [hargs]; exact List.mem_cons_of_mem _ (List.mem_singleton.2 rfl))
  constructor
  case shaped =>
    exact Build.shaped_negatedIf (Build.shaped_methodCall
      (hshape _ (by simp)) (by simpa using hshape _ (by simp)))
  case notMute => exact hcmp.not_isMute
  case taken =>
    intro p
    rw [hnew]
    refine List.Subperm.trans (List.perm_append_comm.subperm)
      (List.Subperm.trans (List.Sublist.subperm ?_)
        (hcmp.listed_call hc.node hck hm ho p))
    rw [hargs]
    simp only [List.flatMap_cons, List.flatMap_nil, List.append_nil,
      List.append_assoc]
    refine List.Sublist.trans ?_ (List.sublist_append_right _ _)
    exact List.Sublist.append (List.Sublist.refl _)
      (List.sublist_append_left _ _)
  case accounted =>
    refine ⟨call.node.ownListed isEffectKind, ?_, fun i hi => Or.inl ?_, ?_⟩
    · rw [heff, Node.effects, Node.effects, Node.effects, hnew]
      exact List.Perm.append_left _ List.perm_append_comm
    · exact hcmp.own_mem_spent hcall hno hi
    · rw [hcmp.templateEffects hc.node]
      exact List.forall_mem_nil _
  case order =>
    rw [KeepsOrder, hswap]
    refine ⟨hnew isEffectKind, ?_, fun i j h => ?_⟩
    · rw [heff]
      exact List.sublist_append_right _ _
    · rwa [Build.splits_negatedIf, Build.splits_methodCall_one] at h
  case steady =>
    exact fun _ => steady_methodCall (Cursor.node_mem_walk harray)
      (Cursor.node_mem_walk hvalue)

theorem keeps_inArray : inArray.Keeps := by
  refine Rule.keeps_ofSweeps (by decide)
    ⟨fun c hc => hc, fun context c new hc hk h => ?_⟩
  simp only at h
  obtain ⟨r, hr, h⟩ := bind_eq_ok.1 h
  split at h
  · simp [pure_eq_ok] at h
  · next call negated =>
      obtain ⟨other, k, hcmp, hidx, hint⟩ := presenceCheck_spec hr
      obtain ⟨hother, hno⟩ := Cursor.effects_integerValue
        (hc.of_mem_walk hcmp.other_mem_walk).node hint
      rw [hcmp.unparen_other] at hno
      obtain ⟨hck, m, o, value, array, hm, ho, hfactory, hargs⟩ :=
        isInArrayCall_spec hidx
      rw [hargs] at h
      obtain rfl := some_eq_of_ok h
      exact kept_of_exchange hc hcmp hother hno hck hm ho hfactory hargs

end Rules

end Codemod
