/-
Elements and wrappers.

Two tests look at an expression without knowing of each other: where a
wrapper in it comes from (`Cursor.classify`), and whether it denotes an
element (`Cursor.isElement`). Both follow names to their initializers
(`LeadsTo`), and no expression passes both
(`classify_of_isElementWithin`).

A call of a method is taken for an element by the method's name alone,
and `closest` is a method of wrappers too. So an element may still lead
to a call on a wrapper. Main statement: `isElement_excludes_wrappers_iff`,
it does so exactly if the call it leads to is one of a named method and
has a wrapper for its receiver (`TakesForElement`).
-/
import Codemod.Analysis.Wrapper
import Codemod.Proofs.Tree.Position

namespace Codemod

namespace Cursor

-- ============================================================== method calls

/-- The object whose method an expression calls. -/
def methodOwner? (c : Cursor) : Option Cursor :=
  if c.is .callExpression then
    match c.inner? .function with
    | some callee =>
      if callee.is .memberExpression then callee.child? .object else none
    | none => none
  else none

/-- The expression calls a method of a wrapper. -/
def CallsWrapper (names : List Text) (c : Cursor) : Prop :=
  ∃ o p, c.methodOwner? = some o ∧ o.classify names = .ok p ∧ p ≠ .unknown

/-- The expression is a plain call of one of the methods that return an
element. -/
def callsElementMethod (c : Cursor) : Bool :=
  match c.inner? .function with
  | some callee =>
    callee.is .memberExpression
      && (match callee.node.propertyName? with
        | some p => p.isOneOf elementMethods
        | none => false)
      && !c.node.isOptional
  | none => false

/-- Following `n` names to their initializers leads from one expression to
another. Only names that pass the test are followed. -/
inductive LeadsTo (follow : Text → Bool) : Nat → Cursor → Cursor → Prop where
  /-- Nothing is followed; parentheses are taken off. -/
  | here (c : Cursor) : LeadsTo follow 0 c c.unparen
  /-- A name is followed to its initializer. -/
  | name {c init d : Cursor} {n : Nat} (hk : c.unparen.is .identifier = true)
      (hf : follow c.unparen.code = true)
      (hr : c.unparen.resolve? c.unparen.code = some init)
      (h : LeadsTo follow n init d) : LeadsTo follow (n + 1) c d

/-- The name may hold an element. -/
def mayHoldElement (name : Text) : Bool := !name.isOneOf notElements

/-- A call on a wrapper is taken for an element: it is what the expression
leads to, and its method is one of those that return an element. -/
def TakesForElement (names : List Text) (c : Cursor) : Prop :=
  ∃ n d, n < elementDepth ∧ LeadsTo mayHoldElement n c d
    ∧ d.callsElementMethod = true ∧ d.CallsWrapper names

variable {c d init : Cursor} {fuel n : Nat} {names : List Text}

theorem is_callExpression_of_callsWrapper (h : c.CallsWrapper names) :
    c.is .callExpression = true := by
  obtain ⟨o, p, ho, -⟩ := h
  unfold methodOwner? at ho
  split at ho
  · assumption
  · cases ho

-- =========================================================== what is followed

theorem LeadsTo.mono {follow follow' : Text → Bool} (h : LeadsTo follow n c d)
    (himp : ∀ t, follow t = true → follow' t = true) : LeadsTo follow' n c d := by
  induction h with
  | here c => exact .here c
  | name hk hf hr _ ih => exact .name hk (himp _ hf) hr ih

-- ================================================================ elements

/-- A name denotes an element if its initializer does. -/
theorem isElementWithin_of_name (hk : c.unparen.is .identifier = true)
    (hr : c.unparen.resolve? c.unparen.code = some init) :
    isElementWithin (fuel + 1) c
      = (mayHoldElement c.unparen.code && isElementWithin fuel init) := by
  have hthis : c.unparen.is .thisExpr = false :=
    Node.is_false_of_kind (Node.is_iff.1 hk) (by decide)
  rw [isElementWithin, mayHoldElement, hthis, hk, hr]
  cases c.unparen.code.isOneOf notElements <;> rfl

/-- A call denotes an element if its method returns one. -/
theorem isElementWithin_of_call (hk : c.unparen.is .callExpression = true) :
    isElementWithin (fuel + 1) c = c.unparen.callsElementMethod := by
  have hno : ∀ s, Symbol.callExpression ≠ s → c.unparen.is s = false :=
    fun s hs => Node.is_false_of_kind (Node.is_iff.1 hk) hs
  rw [isElementWithin, callsElementMethod, hno _ (by decide), hno _ (by decide),
    hno _ (by decide), hno _ (by decide), hk]
  rfl

/-- A call that an element leads to is a call of a method that returns
one, and it is found within the bound. -/
theorem callsElementMethod_of_leadsTo (h : isElementWithin fuel c = true)
    (hd : LeadsTo (fun _ => true) n c d) (hk : d.is .callExpression = true) :
    n < fuel ∧ LeadsTo mayHoldElement n c d ∧ d.callsElementMethod = true := by
  induction hd generalizing fuel with
  | here c =>
      cases fuel with
      | zero => cases h
      | succ fuel =>
          rw [isElementWithin_of_call hk] at h
          exact ⟨Nat.succ_pos _, .here c, h⟩
  | name hk' _ hr _ ih =>
      cases fuel with
      | zero => cases h
      | succ fuel =>
          rw [isElementWithin_of_name hk' hr, Bool.and_eq_true] at h
          obtain ⟨hn, hlead, hcall⟩ := ih h.2 hk
          exact ⟨Nat.succ_lt_succ hn, .name hk' h.1 hr hlead, hcall⟩

/-- What leads to such a call is taken for an element. -/
theorem isElementWithin_of_leadsTo (hd : LeadsTo mayHoldElement n c d)
    (hn : n < fuel) (hk : d.is .callExpression = true)
    (hcall : d.callsElementMethod = true) : isElementWithin fuel c = true := by
  obtain ⟨fuel, rfl⟩ := Nat.exists_eq_succ_of_ne_zero (Nat.ne_zero_of_lt hn)
  induction hd generalizing fuel with
  | here c => rw [isElementWithin_of_call hk, hcall]
  | name hk' hf hr _ ih =>
      obtain ⟨fuel, rfl⟩ := Nat.exists_eq_succ_of_ne_zero
        (Nat.ne_zero_of_lt (Nat.lt_of_succ_lt_succ hn))
      rw [isElementWithin_of_name hk' hr, hf]
      exact ih hk hcall fuel (Nat.lt_of_succ_lt_succ hn)

-- ================================================================ wrappers

/-- A name has no parentheses to take off. -/
theorem unparen_of_identifier (h : c.is .identifier = true) : c.unparen = c :=
  unparen_of_not_parens (Node.is_false_of_kind (Node.is_iff.1 h) (by decide))

/-- Only the call of a name can be a call of the factory. -/
theorem isFactoryCall_of_no_name
    (h : c.unparen.is .callExpression = true → ∀ f,
      c.unparen.child? .function = some f → f.is .identifier = false) :
    c.isFactoryCall names = .ok false := by
  unfold isFactoryCall
  cases hk : c.unparen.is .callExpression with
  | false => simp [hk]
  | true =>
      cases hf : c.unparen.child? .function with
      | none => simp [hk, hf]
      | some f => simp [hk, hf, h hk f hf]

/-- An element is no call of the factory. -/
theorem isFactoryCall_of_isElementWithin (h : isElementWithin fuel c = true) :
    c.isFactoryCall names = .ok false := by
  cases fuel with
  | zero => cases h
  | succ fuel =>
      refine isFactoryCall_of_no_name fun hk f hf => ?_
      rw [isElementWithin_of_call hk, callsElementMethod, inner?, hf,
        Option.map_some] at h
      simp only [Bool.and_eq_true] at h
      rw [Bool.eq_false_iff]
      intro hname
      rw [unparen_of_identifier hname, is,
        Node.is_false_of_kind (Node.is_iff.1 hname) (by decide)] at h
      cases h.1.1

/-- A name is a wrapper only if its initializer is a call of the
factory. -/
theorem wrapperCall?_of_resolve? (h : c.isFactoryCall names = .ok false)
    (hr : ∀ init, c.unparen.resolve? c.unparen.code = some init →
      c.unparen.is .identifier = true → init.isFactoryCall names = .ok false) :
    c.wrapperCall? names = .ok none := by
  have hself : c.unparen.isFactoryCall names = .ok false := by
    rw [isFactoryCall] at h ⊢
    rw [unparen_unparen]
    exact h
  unfold wrapperCall?
  simp only [hself, bind, Except.bind, pure, Except.pure, Bool.false_eq_true,
    if_false]
  cases hk : c.unparen.is .identifier with
  | false => rfl
  | true =>
      cases c.unparen.binding? c.unparen.code with
      | none => rfl
      | some found =>
          obtain ⟨scope, ds⟩ := found
          cases hs : isSharedDollar c.unparen.code (some scope) with
          | true => simp [hs]
          | false =>
              cases hinit : c.unparen.resolve? c.unparen.code with
              | none => simp [hs]
              | some init => simp [hs, hr init hinit hk]

/-- An element is no wrapper. -/
theorem classify_of_isElementWithin (h : isElementWithin fuel c = true) :
    c.classify names = .ok .unknown := by
  have hcall : c.wrapperCall? names = .ok none := by
    refine wrapperCall?_of_resolve? (isFactoryCall_of_isElementWithin h)
      fun init hr hk => ?_
    cases fuel with
    | zero => cases h
    | succ fuel =>
        rw [isElementWithin_of_name hk hr, Bool.and_eq_true] at h
        exact isFactoryCall_of_isElementWithin h.2
  rw [classify, hcall]
  rfl

/-- An element is never classified as a wrapper; and neither it nor what
its name leads to calls a method of a wrapper, unless that very call is
what has been taken for an element. -/
theorem isElement_excludes_wrappers_iff (names : List Text) (c : Cursor) :
    (c.isElement = true → c.classify names = .ok .unknown
        ∧ ∀ n d, LeadsTo (fun _ => true) n c d → ¬ d.CallsWrapper names)
      ↔ ¬ c.TakesForElement names := by
  constructor
  · rintro h ⟨n, d, hn, hd, hcall, hw⟩
    have hk := is_callExpression_of_callsWrapper hw
    have helement : c.isElement = true := isElementWithin_of_leadsTo hd hn hk hcall
    exact (h helement).2 n d (hd.mono fun _ _ => rfl) hw
  · intro hno h
    refine ⟨classify_of_isElementWithin h, fun n d hd hw => hno ?_⟩
    have hk := is_callExpression_of_callsWrapper hw
    obtain ⟨hn, hlead, hcall⟩ := callsElementMethod_of_leadsTo h hd hk
    exact ⟨n, d, hn, hlead, hcall, hw⟩

end Cursor

open Cursor in
/-- A row found by `closest` of a wrapper is a wrapper, and it is taken
for an element. -/
theorem isElement_takes_closest_of_wrapper :
    ∃ n c d, parse (Text.ofString "var row = $(this).closest('tr'); $(row).hide();")
        = .ok n ∧ c ∈ (top n).walk ∧ c.isElement = true
      ∧ LeadsTo (fun _ => true) 1 c d ∧ d.CallsWrapper defaultFactoryNames := by
  have h : holdsAt (Text.ofString "var row = $(this).closest('tr'); $(row).hide();")
      [1, 0, 0, 0, 1, 1] (fun c => c.isElement && c.unparen.is .identifier
        && (c.unparen.resolve? c.unparen.code).any fun init =>
          init.unparen.methodOwner?.any fun o =>
            (o.classify defaultFactoryNames).toOption.any (· == .direct)) = true := by
    decide +kernel
  obtain ⟨n, c, hn, hc, ht⟩ := exists_of_holdsAt h
  simp only [Bool.and_eq_true, Option.any_eq_true] at ht
  obtain ⟨⟨helement, hk⟩, init, hr, o, ho, p, hp, hdirect⟩ := ht
  have hclass : o.classify defaultFactoryNames = .ok p := by
    cases hcl : o.classify defaultFactoryNames with
    | error f =>
        rw [hcl] at hp
        cases hp
    | ok q =>
        rw [hcl] at hp
        rw [Option.some.inj hp]
  refine ⟨n, c, init.unparen, hn, hc, helement, .name hk rfl hr (.here init), o, p,
    ho, hclass, ?_⟩
  rw [eq_of_beq hdirect]
  decide

end Codemod
