/-
What a rewrite keeps.

A rewrite spends the expression it matches, the index call that it
compares and the call of the factory that it unwraps (`Cursor.spent`).
Every other effect of the expression is kept, in order, save for two
things: the template of a tagged call is left out, and an `inArray` call
has its array evaluated before its value (`Cursor.swapped?`).

`Kept` says so of one expression and what replaces it. All rewrites but
one come under `kept_of_effects`.
-/
import Codemod.Analysis.Comparison
import Codemod.Proofs.Effect.Call
import Codemod.Proofs.Tree.Separation

namespace Codemod

namespace Cursor

-- ============================================================ what is spent

/-- The methods that return an index or a part of a text, to be
compared. -/
def indexMethods : List String := ["inArray", "indexOf", "substring"]

/-- The name of the method that a call calls. -/
def calledName? (c : Cursor) : Option Text :=
  if c.is .callExpression then c.calledMember?.map (·.2) else none

/-- A call of one of the methods that are compared. -/
def isIndexCall (c : Cursor) : Bool :=
  match c.calledName? with
  | some name => name.isOneOf indexMethods
  | none => false

/-- The index call of a comparison. -/
def indexCall? (c : Cursor) : Option Cursor :=
  if !c.is .binaryExpression then none
  else match (c.inner? .left).filter isIndexCall with
    | some call => some call
    | none => (c.inner? .right).filter isIndexCall

/-- The receiver of a method call. -/
def receiver? (c : Cursor) : Option Cursor :=
  match c.calledMember? with
  | some (m, _) => m.inner? .object
  | none => none

/-- The effects that a rewrite of an expression spends: the expression
itself, the index call that it compares, the call of the factory that it
unwraps. -/
def spent (names : List Text) (c : Cursor) : List Nat :=
  c.node.id.toList
    ++ (match c.indexCall? with
      | some call => call.node.id.toList
      | none => [])
    ++ match c.receiver? with
      | some r => unwrappedCall names r
      | none => []

/-- The value and the array that a rewrite evaluates in the opposite
order. -/
def swapped? (c : Cursor) : Option (Cursor × Cursor) :=
  match c.indexCall? with
  | none => none
  | some call =>
    if call.calledName? == some (Text.ofString "inArray") then
      match call.arguments with
      | [value, array] => some (value, array)
      | _ => none
    else none

end Cursor

/-- The order of effects: as it was, or with value and array exchanged. -/
def KeepsOrder (c : Cursor) (new : Node) : Prop :=
  match c.swapped? with
  | none => new.effects.Sublist c.node.effects
  | some (value, array) =>
    new.effects = array.node.effects ++ value.node.effects
      ∧ (value.node.effects ++ array.node.effects).Sublist c.node.effects
      ∧ ∀ i j, new.Splits i j → array.node.Splits i j ∨ value.node.Splits i j

/-- `new` can take the place of an expression: it is made of the
expression's own parts and keeps its effects, save for those spent and
those in a template that is left out. -/
structure Kept (names : List Text) (c : Cursor) (new : Node) : Prop where
  shaped : new.Shaped
  notMute : c.node.isMute = false
  taken : ∀ p, (new.listed p).Subperm (c.node.listed p)
  accounted : ∃ gone, c.node.effects.Perm (gone ++ new.effects)
    ∧ (∀ i ∈ gone, i ∈ c.spent names ∨ i ∈ c.templateEffects)
    ∧ ∀ i ∈ c.templateEffects, i ∈ gone
  order : KeepsOrder c new
  /-- The rewrite of a comparison separates nothing. -/
  steady : c.is .binaryExpression = true →
    ∀ i j, new.Splits i j → c.node.Splits i j

variable {names : List Text} {c m o : Cursor} {name : Text} {new target : Node}

theorem Cursor.not_isMute_of_child? {d : Cursor} {r : Role}
    (h : c.child? r = some d) : c.node.isMute = false := by
  have hmem := Cursor.node_mem_of_mem_children (Cursor.mem_children_of_child? h)
  rw [Node.isMute, Bool.and_eq_false_iff]
  left
  rw [List.isEmpty_eq_false_iff]
  exact List.ne_nil_of_mem hmem

/-- The effects kept stand together, between those spent and those of the
template. -/
theorem kept_of_effects {first : List Nat} (hshape : new.Shaped)
    (hmute : c.node.isMute = false)
    (htaken : ∀ p, (new.listed p).Subperm (c.node.listed p))
    (heff : c.node.effects = first ++ (new.effects ++ c.templateEffects))
    (hfirst : ∀ i ∈ first, i ∈ c.spent names) (hswap : c.swapped? = none)
    (hsteady : c.is .binaryExpression = true →
      ∀ i j, new.Splits i j → c.node.Splits i j) :
    Kept names c new := by
  refine ⟨hshape, hmute, htaken, ⟨first ++ c.templateEffects, ?_, ?_, ?_⟩, ?_,
    hsteady⟩
  · rw [heff]
    refine List.perm_iff_count.2 fun a => ?_
    simp only [List.count_append]
    omega
  · intro i hi
    rcases List.mem_append.1 hi with hi | hi
    · exact Or.inl (hfirst i hi)
    · exact Or.inr hi
  · intro i hi
    exact List.mem_append_right _ hi
  · rw [KeepsOrder, hswap, heff]
    exact (List.sublist_append_left _ _).trans (List.sublist_append_right _ _)

/-- A call is no comparison. -/
theorem Cursor.not_binary_of_call (hk : c.is .callExpression = true) :
    c.is .binaryExpression = false := by
  have hk' : c.node.kind = .symbol .callExpression := by
    simpa [Cursor.is, Node.is] using hk
  simp [Cursor.is, Node.is, hk']

theorem Cursor.indexCall?_of_call (hk : c.is .callExpression = true) :
    c.indexCall? = none := by
  rw [Cursor.indexCall?, Cursor.not_binary_of_call hk]
  rfl

theorem Cursor.swapped?_of_call (hk : c.is .callExpression = true) :
    c.swapped? = none := by
  rw [Cursor.swapped?, Cursor.indexCall?_of_call hk]

/-- A call has no parentheses to take off. -/
theorem Cursor.unparen_of_call (hk : c.is .callExpression = true) :
    c.unparen = c := by
  have h : c.node.kind = .symbol .callExpression := by
    simpa [Cursor.is, Node.is] using hk
  exact Cursor.unparen_of_not_parens (by simp [Cursor.is, Node.is, h])

theorem Cursor.own_mem_spent {i : Nat} (h : i ∈ c.node.ownListed isEffectKind) :
    i ∈ c.spent names := by
  have := ownListed_subset _ _ i h
  simp only [Cursor.spent, List.mem_append]
  exact Or.inl (Or.inl this)

theorem Cursor.unwrapped_mem_spent {i : Nat}
    (hm : c.calledMember? = some (m, name)) (ho : m.child? .object = some o)
    (h : i ∈ unwrappedCall names o.unparen) : i ∈ c.spent names := by
  have hr : c.receiver? = some o.unparen := by
    rw [Cursor.receiver?, hm]
    exact Cursor.inner?_eq_some.2 ⟨o, ho, rfl⟩
  simp only [Cursor.spent, List.mem_append, hr]
  exact Or.inr h

/-- A call whose effects that are kept stand together. -/
theorem kept_of_call {first : List Nat} (hk : c.is .callExpression = true)
    (hshape : new.Shaped) (hmute : c.node.isMute = false)
    (htaken : ∀ p, (new.listed p).Subperm (c.node.listed p))
    (heff : c.node.effects = first ++ (new.effects ++ c.templateEffects))
    (hfirst : ∀ i ∈ first, i ∈ c.spent names) : Kept names c new := by
  refine kept_of_effects hshape hmute htaken heff hfirst
    (Cursor.swapped?_of_call hk) fun hb => ?_
  rw [Cursor.not_binary_of_call hk] at hb
  cases hb

/-- A method call of which the object and the arguments are kept, save for
effects that are spent. -/
theorem kept_of_object {gone : List Nat} (hs : c.node.Shaped)
    (hk : c.is .callExpression = true) (hm : c.calledMember? = some (m, name))
    (ho : m.child? .object = some o) (hshape : new.Shaped)
    (hlisted : ∀ p, (new.listed p).Subperm
      (o.node.listed p ++ c.arguments.flatMap (·.node.listed p)))
    (heff : o.node.effects ++ c.arguments.flatMap (·.node.effects)
      = gone ++ new.effects)
    (hgone : ∀ i ∈ gone, i ∈ c.spent names) : Kept names c new := by
  obtain ⟨hinner, hprop⟩ := Cursor.calledMember?_eq_some hm
  have hmk : m.is .memberExpression = true := Cursor.is_of_propertyName? hprop
  obtain ⟨f, hf, -⟩ := Cursor.inner?_eq_some.1 hinner
  have hfirst : ∀ i ∈ c.node.ownListed isEffectKind ++ gone, i ∈ c.spent names := by
    intro i hi
    rcases List.mem_append.1 hi with hi | hi
    · exact Cursor.own_mem_spent hi
    · exact hgone i hi
  refine kept_of_call hk hshape (Cursor.not_isMute_of_child? hf) ?_ ?_ hfirst
  · intro p
    exact (hlisted p).trans
      (Cursor.listed_methodCall_sublist hs hk hinner ho p).subperm
  · rw [Cursor.effects_methodCall hs hk hinner hmk ho, ← List.append_assoc _ _
      c.templateEffects, heff]
    simp only [List.append_assoc]

/-- A method call whose receiver gives way to what stands for it, the
arguments with effects being kept. -/
theorem kept_of_receiver (hs : c.node.Shaped)
    (hk : c.is .callExpression = true) (hm : c.calledMember? = some (m, name))
    (ho : m.child? .object = some o) (ht : StandsFor names o.unparen target)
    (hshape : new.Shaped)
    (hlisted : ∀ p, (new.listed p).Subperm
      (target.listed p ++ c.arguments.flatMap (·.node.listed p)))
    (heff : new.effects
      = target.effects ++ c.arguments.flatMap (·.node.effects)) :
    Kept names c new := by
  have hos : o.node.Shaped := by
    obtain ⟨f, hf, hfm⟩ :=
      Cursor.inner?_eq_some.1 (Cursor.calledMember?_eq_some hm).1
    have hmem : m ∈ c.walk := by
      rw [← hfm]
      exact Cursor.mem_walk_trans (Cursor.mem_walk_of_child? hf)
        (Cursor.unparen_mem_walk f)
    exact Cursor.shaped_of_child? (Cursor.shaped_of_mem_walk hs hmem) ho
  obtain ⟨gone, hgone, hspent⟩ := ht.effects
  rw [Cursor.effects_unparen hos] at hgone
  refine kept_of_object hs hk hm ho hshape (fun p => ?_) ?_
    fun i hi => Cursor.unwrapped_mem_spent hm ho (hspent i hi)
  · refine (hlisted p).trans (List.Sublist.subperm ?_)
    refine List.Sublist.append ?_ (List.Sublist.refl _)
    exact (ht.listed p).trans (Cursor.listed_unparen_sublist o p)
  · rw [hgone, heff, List.append_assoc]

/-- A call of the factory whose argument is kept. -/
theorem kept_of_factoryCall {a : Cursor} (hs : c.node.Shaped)
    (hk : c.is .callExpression = true)
    (hf : c.isFactoryCall names = .ok true) (ha : a ∈ c.arguments)
    (hshape : new.Shaped)
    (hlisted : ∀ p, (new.listed p).Subperm (a.node.listed p))
    (heff : new.effects = a.node.effects) : Kept names c new := by
  have hu : c.unparen = c := Cursor.unparen_of_call hk
  obtain ⟨-, ⟨f, hf', hident⟩, b, hb⟩ := Cursor.isFactoryCall_spec hf
  rw [hu] at hf' hb
  rw [hb, List.mem_singleton] at ha
  subst ha
  refine kept_of_call hk hshape (Cursor.not_isMute_of_child? hf') (fun p => ?_)
    ?_ fun i => Cursor.own_mem_spent
  · refine (hlisted p).trans (List.Sublist.subperm ?_)
    refine List.Sublist.trans ?_ (Cursor.listed_call_sublist hs hk p)
    rw [hb]
    simp
  · rw [Cursor.effects_factoryCall hs hk hf' hident hb, heff,
      Cursor.templateEffects_of_arguments hb, List.append_nil]

end Codemod
