/-
The kinds of values that expressions come to.

`c.MayYield k` says that the expression may evaluate to a value of the kind,
by the result types of the language: literals and most operators have
results of fixed kinds, some expressions pass on what one of their parts
comes to, and a method of a string gives what the language says (`outcome`).
Anything may come of the rest, and something of every expression
(`exists_mayYield`). What is taken for a string comes to nothing else
(`eq_string_of_isString`), and what is taken for a single value is neither
null, undefined nor an array (`isSingle_of_isScalar`).

A function that is mapped leaves by a `return` with such a value: a list of
statements that ends with a `return` is never run to its end
(`not_mayFinish_of_getLast?`).

Main statement: `Rules.map_callback_single`.
-/
import Codemod.Proofs.Rule.Callers
import Codemod.Proofs.Rule.Parts

namespace Codemod

open Text

-- ================================================================ kinds

/-- The kinds of values; an array is told from other objects. -/
inductive ValueKind where
  | undefined
  | null
  | boolean
  | number
  | bigInt
  | string
  | symbol
  | array
  | object
deriving DecidableEq

namespace ValueKind

/-- All kinds. -/
def all : List ValueKind :=
  [undefined, null, boolean, number, bigInt, string, symbol, array, object]

/-- Mapping keeps the value as it is: null and undefined are dropped, and
arrays are flattened. -/
def IsSingle (k : ValueKind) : Prop := k ≠ null ∧ k ≠ undefined ∧ k ≠ array

instance (k : ValueKind) : Decidable k.IsSingle := inferInstanceAs (Decidable (_ ∧ _))

end ValueKind

open ValueKind

/-- The results of an operator in front of its operand. -/
def unaryResults (operator : Text) : List ValueKind :=
  if operator.isOneOf ["!", "delete"] then [.boolean]
  else if operator.isOneOf ["typeof"] then [.string]
  else if operator.isOneOf ["void"] then [.undefined]
  else if operator.isOneOf ["+"] then [.number]
  else [.number, .bigInt]

/-- The results of an operator between two operands that passes on neither
of them: sums, comparisons, and the arithmetic of the others. -/
def binaryResults (operator : Text) : List ValueKind :=
  if operator.isOneOf ["+"] then [.number, .bigInt, .string]
  else if operator.isOneOf
      ["==", "!=", "===", "!==", "<", "<=", ">", ">=", "in", "instanceof"] then [.boolean]
  else [.number, .bigInt]

/-- The methods of strings that return a string. -/
def stringReturning : List String := [
  "charAt", "concat", "normalize", "padEnd", "padStart", "repeat", "replace",
  "replaceAll", "slice", "substr", "substring", "toLocaleLowerCase",
  "toLocaleUpperCase", "toLowerCase", "toString", "toUpperCase", "toWellFormed",
  "trim", "trimEnd", "trimLeft", "trimRight", "trimStart", "valueOf"]

/-- The results of a method of a string. -/
def stringResults (name : Text) : List ValueKind :=
  if name.isOneOf stringReturning then [.string]
  else if name.isOneOf ["at"] then [.string, .undefined]
  else if name.isOneOf ["codePointAt"] then [.number, .undefined]
  else if name.isOneOf
      ["charCodeAt", "indexOf", "lastIndexOf", "localeCompare", "search"] then [.number]
  else if name.isOneOf ["endsWith", "includes", "isWellFormed", "startsWith"] then [.boolean]
  else if name.isOneOf ["match"] then [.array, .null]
  else if name.isOneOf ["matchAll"] then [.object]
  else if name.isOneOf ["split"] then [.array]
  else ValueKind.all

-- ============================================================ evaluation

/-- What the value of an expression is. -/
inductive Outcome where
  /-- It is of one of the kinds. -/
  | fixed (kinds : List ValueKind)
  /-- It is the value of one of the parts. -/
  | either (parts : List Cursor)
  /-- A method returns it. -/
  | method (receiver : Cursor) (name : Text)
  | unknown

/-- The value of one of the parts, if they are there. -/
def Outcome.ofParts (parts : List (Option Cursor)) : Outcome :=
  if parts.all (·.isSome) then .either (parts.filterMap id) else .unknown

namespace Cursor

/-- The operator as it is written. -/
def operator (c : Cursor) : Text :=
  match c.child? .operator with
  | some o => o.code
  | none => []

/-- What the value of the expression is, by its form. -/
def outcome (c : Cursor) : Outcome :=
  match c.node.kind with
  | .symbol .string | .symbol .templateString => .fixed [.string]
  | .symbol .number | .symbol .updateExpression => .fixed [.number, .bigInt]
  | .symbol .trueLit | .symbol .falseLit => .fixed [.boolean]
  | .symbol .nullLit => .fixed [.null]
  | .symbol .array => .fixed [.array]
  | .symbol .object | .symbol .regex | .symbol .classExpr | .symbol .arrowFunction
  | .symbol .functionExpression | .symbol .generatorFunction => .fixed [.object]
  | .symbol .unaryExpression => .fixed (unaryResults c.operator)
  | .symbol .binaryExpression =>
    if c.operator.isOneOf ["&&", "||", "??"] then .ofParts [c.child? .left, c.child? .right]
    else .fixed (binaryResults c.operator)
  | .symbol .ternaryExpression => .ofParts [c.child? .consequence, c.child? .alternative]
  | .symbol .assignmentExpression => .ofParts [c.child? .right]
  | .symbol .sequenceExpression => .ofParts [c.operands.getLast?]
  | .symbol .parenthesizedExpression =>
    match c.operands with
    | [d] => .either [d]
    | _ => .unknown
  | .symbol .callExpression =>
    match c.calledMember? with
    | some (m, name) =>
      match m.child? .object with
      | some r => .method r name
      | none => .unknown
    | none => .unknown
  | _ => .unknown

/-- The expression may evaluate to a value of the kind. -/
inductive MayYield : Cursor → ValueKind → Prop
  | fixed {c : Cursor} {ks : List ValueKind} {k : ValueKind} :
    c.outcome = .fixed ks → k ∈ ks → MayYield c k
  | either {c d : Cursor} {ds : List Cursor} {k : ValueKind} :
    c.outcome = .either ds → d ∈ ds → MayYield d k → MayYield c k
  | ofString {c r : Cursor} {name : Text} {k : ValueKind} :
    c.outcome = .method r name → MayYield r .string → k ∈ stringResults name → MayYield c k
  | ofOther {c r : Cursor} {name : Text} {j k : ValueKind} :
    c.outcome = .method r name → MayYield r j → j ≠ .string → MayYield c k
  | unknown {c : Cursor} {k : ValueKind} : c.outcome = .unknown → MayYield c k

variable {c d r : Cursor} {ds : List Cursor} {ks : List ValueKind} {k : ValueKind}
  {name : Text} {fuel : Nat}

theorem mayYield_fixed (h : c.outcome = .fixed ks) : c.MayYield k ↔ k ∈ ks := by
  refine ⟨fun hk => ?_, .fixed h⟩
  cases hk with
  | fixed h' hmem => rw [h] at h'; cases h'; exact hmem
  | either h' | ofString h' | ofOther h' | unknown h' => rw [h] at h'; cases h'

theorem mayYield_either (h : c.outcome = .either ds) :
    c.MayYield k ↔ ∃ d ∈ ds, d.MayYield k := by
  refine ⟨fun hk => ?_, fun ⟨_, hd, hk⟩ => .either h hd hk⟩
  cases hk with
  | either h' hd hk => rw [h] at h'; cases h'; exact ⟨_, hd, hk⟩
  | fixed h' | ofString h' | ofOther h' | unknown h' => rw [h] at h'; cases h'

theorem mayYield_method (h : c.outcome = .method r name) :
    c.MayYield k ↔ (r.MayYield .string ∧ k ∈ stringResults name)
      ∨ ∃ j, r.MayYield j ∧ j ≠ .string := by
  constructor
  · intro hk
    cases hk with
    | ofString h' hr hmem => rw [h] at h'; cases h'; exact Or.inl ⟨hr, hmem⟩
    | ofOther h' hr hj => rw [h] at h'; cases h'; exact Or.inr ⟨_, hr, hj⟩
    | fixed h' | either h' | unknown h' => rw [h] at h'; cases h'
  · rintro (⟨hr, hmem⟩ | ⟨j, hr, hj⟩)
    · exact .ofString h hr hmem
    · exact .ofOther h hr hj

/-- Parentheses make no difference. -/
theorem mayYield_unparenWithin (fuel : Nat) (h : c.MayYield k) :
    (unparenWithin fuel c).MayYield k := by
  induction fuel generalizing c with
  | zero => exact h
  | succ fuel ih =>
    rcases unparenWithin_cases (fuel + 1) c with heq | ⟨d, fuel', hk, hd, hfuel, heq⟩
    · rwa [heq]
    · obtain rfl : fuel = fuel' := by omega
      have hout : c.outcome = .either [d] := by
        unfold outcome
        rw [Node.is_iff.1 hk]
        simp only [hd]
      obtain ⟨e, he, hyield⟩ := (mayYield_either hout).1 h
      obtain rfl := List.mem_singleton.1 he
      rw [heq]
      exact ih hyield

theorem mayYield_unparen (h : c.MayYield k) : c.unparen.MayYield k :=
  mayYield_unparenWithin _ h

-- ============================================================== totality

/-- The value comes from somewhere: there is a kind for it, or a part below
the expression. -/
def Rests (c : Cursor) : Outcome → Prop
  | .fixed ks => ks ≠ []
  | .either ds => ds ≠ [] ∧ ∀ d ∈ ds, d.Below c
  | .method r _ => r.Below c
  | .unknown => True

theorem rests_ofParts {parts : List (Option Cursor)} (hne : parts ≠ [])
    (h : ∀ d, some d ∈ parts → d.Below c) : c.Rests (.ofParts parts) := by
  unfold Outcome.ofParts
  split
  · next hall =>
    refine ⟨?_, fun d hd => h d (by simpa using hd)⟩
    cases parts with
    | nil => exact absurd rfl hne
    | cons p ps =>
      rw [List.all_cons, Bool.and_eq_true] at hall
      obtain ⟨d, rfl⟩ := Option.isSome_iff_exists.1 hall.1
      exact List.ne_nil_of_mem (List.mem_filterMap.2 ⟨some d, List.mem_cons_self, rfl⟩)
  · trivial

theorem unaryResults_ne_nil (operator : Text) : unaryResults operator ≠ [] := by
  unfold unaryResults
  split_ifs <;> decide

theorem binaryResults_ne_nil (operator : Text) : binaryResults operator ≠ [] := by
  unfold binaryResults
  split_ifs <;> decide

theorem stringResults_ne_nil (name : Text) : stringResults name ≠ [] := by
  unfold stringResults
  split_ifs <;> decide

theorem rests_outcome (c : Cursor) : c.Rests c.outcome := by
  have hchild : ∀ r d, some d = c.child? r → d.Below c := fun r d h => below_of_child? h.symm
  have hlast : ∀ d, some d = c.operands.getLast? → d.Below c := fun d h =>
    ⟨d, mem_children_of_mem_operands (List.mem_of_getLast? h.symm), self_mem_walk d⟩
  have hone : ∀ p : Option Cursor, (∀ d, some d = p → d.Below c) → c.Rests (.ofParts [p]) :=
    fun p h => rests_ofParts (List.cons_ne_nil _ _) fun d hd => h d (List.mem_singleton.1 hd)
  have htwo : ∀ r s, c.Rests (.ofParts [c.child? r, c.child? s]) := fun r s =>
    rests_ofParts (List.cons_ne_nil _ _) fun d hd =>
      (List.mem_pair.1 hd).elim (hchild r d) (hchild s d)
  unfold outcome
  split
  -- literals, and what makes an object
  any_goals exact List.cons_ne_nil _ _
  · exact unaryResults_ne_nil _
  · split
    · exact htwo _ _
    · exact binaryResults_ne_nil _
  · exact htwo _ _
  · exact hone _ (hchild _)
  · exact hone _ hlast
  · split
    · next d hd =>
      refine ⟨List.cons_ne_nil _ _, fun e he => ?_⟩
      obtain rfl := List.mem_singleton.1 he
      exact hlast e (by rw [hd]; rfl)
    · trivial
  · split
    · next m name hm =>
      split
      · next r hr => exact below_of_object hm hr
      · trivial
    · trivial
  · trivial

/-- Every expression may evaluate to something. -/
theorem exists_mayYield (c : Cursor) : ∃ k, c.MayYield k := by
  suffices h : ∀ d ∈ c.walk, ∃ k, d.MayYield k from h c (self_mem_walk c)
  induction c using Cursor.ind with
  | h c ih =>
    intro d hd
    rcases mem_walk_iff.1 hd with rfl | ⟨e, he, hde⟩
    · have hbelow : ∀ f : Cursor, f.Below d → ∃ k, f.MayYield k := fun f hf => by
        obtain ⟨e, he, hfe⟩ := hf
        exact ih e he f hfe
      have hrests := rests_outcome d
      cases hout : d.outcome with
      | fixed ks =>
        rw [hout] at hrests
        obtain ⟨k, hk⟩ := List.exists_mem_of_ne_nil ks hrests
        exact ⟨k, .fixed hout hk⟩
      | either ds =>
        rw [hout] at hrests
        obtain ⟨f, hf⟩ := List.exists_mem_of_ne_nil ds hrests.1
        obtain ⟨k, hk⟩ := hbelow f (hrests.2 f hf)
        exact ⟨k, .either hout hf hk⟩
      | method r name =>
        rw [hout] at hrests
        obtain ⟨j, hj⟩ := hbelow r hrests
        by_cases hstring : j = .string
        · obtain ⟨k, hk⟩ := List.exists_mem_of_ne_nil _ (stringResults_ne_nil name)
          exact ⟨k, .ofString hout (hstring ▸ hj) hk⟩
        · exact ⟨.undefined, .ofOther hout hj hstring⟩
      | unknown => exact ⟨.undefined, .unknown hout⟩
    · exact ih e he d hde

-- =============================================================== strings

theorem stringResults_of_isOneOf (h : name.isOneOf stringMethods = true) :
    stringResults name = [.string] := by
  have hsub : ∀ w ∈ stringMethods, w ∈ stringReturning := by decide
  have hone : name.isOneOf stringReturning = true := by
    obtain ⟨w, hw, hname⟩ := List.any_eq_true.1 h
    exact List.any_eq_true.2 ⟨w, hsub w hw, hname⟩
  exact if_pos hone

theorem eq_string_of_isStringWithin (h : isStringWithin fuel c = true) (hk : c.MayYield k) :
    k = .string := by
  induction fuel generalizing c k with
  | zero => cases h
  | succ fuel ih =>
    have hyield := mayYield_unparen hk
    rw [isStringWithin] at h
    split at h
    · next hany =>
      have hout : c.unparen.outcome = .fixed [.string] := by
        obtain ⟨s, hs, hkind⟩ := Node.isAny_iff.1 hany
        unfold outcome
        rw [hkind]
        rcases List.mem_pair.1 hs with rfl | rfl <;> rfl
      exact List.mem_singleton.1 ((mayYield_fixed hout).1 hyield)
    · split at h
      · next r hr =>
        obtain ⟨hcall, m, name, o, hm, hone, ho, rfl⟩ := methodReceiver?_eq_some hr
        have hout : c.unparen.outcome = .method o name := by
          unfold outcome
          rw [Node.is_iff.1 hcall]
          simp only [hm, ho]
        have hreceiver : ∀ j, o.MayYield j → j = .string := fun j hj =>
          ih h (mayYield_unparen hj)
        rcases (mayYield_method hout).1 hyield with ⟨-, hmem⟩ | ⟨j, hj, hne⟩
        · rw [stringResults_of_isOneOf hone] at hmem
          exact List.mem_singleton.1 hmem
        · exact absurd (hreceiver j hj) hne
      · cases h

/-- What is taken for a string comes to nothing else. -/
theorem eq_string_of_isString (h : c.isString = true) (hk : c.MayYield k) : k = .string :=
  eq_string_of_isStringWithin h hk

-- ========================================================= single values

theorem isSingle_of_binary (operator : Text) : ∀ k ∈ binaryResults operator, k.IsSingle := by
  unfold binaryResults
  split
  · decide
  · split <;> decide

theorem isSingle_of_unary {operator : Text} (h : operator.isOneOf scalarOperators = true) :
    ∀ k ∈ unaryResults operator, k.IsSingle := by
  have hall : ∀ w ∈ scalarOperators, ∀ k ∈ unaryResults (ofString w), k.IsSingle := by decide
  obtain ⟨w, hw, hname⟩ := List.any_eq_true.1 h
  rw [← beq_iff_eq.1 hname]
  exact hall w hw

theorem isOneOf_operator {words : List String} (h : Text.isOneOf [] words = false) :
    c.operator.isOneOf words = c.hasOperator words := by
  unfold operator hasOperator
  cases c.child? .operator with
  | none => exact h
  | some o => rfl

theorem outcome_of_binary (h : c.is .binaryExpression = true) :
    c.outcome = if c.hasOperator shortCircuitOperators then
      .ofParts [c.child? .left, c.child? .right]
      else .fixed (binaryResults c.operator) := by
  have hpasses : c.operator.isOneOf ["&&", "||", "??"] = c.hasOperator shortCircuitOperators :=
    isOneOf_operator (by decide)
  unfold outcome
  rw [Node.is_iff.1 h, ← hpasses]

theorem outcome_of_unary (h : c.is .unaryExpression = true) :
    c.outcome = .fixed (unaryResults c.operator) := by
  unfold outcome
  rw [Node.is_iff.1 h]

theorem outcome_of_ternary (h : c.is .ternaryExpression = true) :
    c.outcome = .ofParts [c.child? .consequence, c.child? .alternative] := by
  unfold outcome
  rw [Node.is_iff.1 h]

/-- Literals and updates have results of their own, all single values. -/
theorem exists_outcome_of_isAny (h : c.isAny [.number, .string, .templateString, .trueLit,
    .falseLit, .updateExpression] = true) :
    ∃ ks, c.outcome = .fixed ks ∧ ∀ k ∈ ks, k.IsSingle := by
  obtain ⟨s, hs, hkind⟩ := Node.isAny_iff.1 h
  unfold outcome
  rw [hkind]
  simp only [List.mem_cons, List.not_mem_nil, or_false] at hs
  rcases hs with rfl | rfl | rfl | rfl | rfl | rfl <;> exact ⟨_, rfl, by decide⟩

theorem isSingle_of_isScalarWithin (h : isScalarWithin fuel c = true) (hk : c.MayYield k) :
    k.IsSingle := by
  induction fuel generalizing c k with
  | zero => cases h
  | succ fuel ih =>
    have hyield := mayYield_unparen hk
    -- what passes on one of two parts that yield single values
    have hparts : ∀ {x y : Cursor}, c.unparen.outcome = .ofParts [some x, some y] →
        (isScalarWithin fuel x && isScalarWithin fuel y) = true → k.IsSingle := by
      intro x y hout hboth
      rw [Bool.and_eq_true] at hboth
      have heither : c.unparen.outcome = .either [x, y] := hout
      obtain ⟨d, hd, hyield⟩ := (mayYield_either heither).1 hyield
      rcases List.mem_pair.1 hd with rfl | rfl
      · exact ih hboth.1 hyield
      · exact ih hboth.2 hyield
    unfold isScalarWithin at h
    dsimp only at h
    split at h
    · next hany =>
      obtain ⟨ks, hout, hall⟩ := exists_outcome_of_isAny hany
      exact hall k ((mayYield_fixed hout).1 hyield)
    split at h
    · next hbinary =>
      have hout := outcome_of_binary hbinary
      split at h
      · next hop =>
        rw [if_pos hop] at hout
        split at h
        · next x y hx hy => exact hparts (by rw [hout, hx, hy]) h
        · cases h
      · next hop =>
        rw [if_neg hop] at hout
        exact isSingle_of_binary _ k ((mayYield_fixed hout).1 hyield)
    split at h
    · next hunary =>
      refine isSingle_of_unary ?_ k ((mayYield_fixed (outcome_of_unary hunary)).1 hyield)
      rw [isOneOf_operator (by decide)]
      exact h
    split at h
    · next hternary =>
      split at h
      · next x y hx hy => exact hparts (by rw [outcome_of_ternary hternary, hx, hy]) h
      · cases h
    · rw [eq_string_of_isString h hyield]
      decide

/-- What is taken for a single value comes to nothing else. -/
theorem isSingle_of_isScalar (h : c.isScalar = true) (hk : c.MayYield k) : k.IsSingle :=
  isSingle_of_isScalarWithin h hk

-- =============================================================== control

/-- The statements that jump. -/
def jumpSymbols : List Symbol :=
  [.returnStatement, .throwStatement, .breakStatement, .continueStatement]

/-- The statement may be left at its end, without a jump: a block, when all
its statements may. -/
inductive MayFinish : Cursor → Prop
  | block {c : Cursor} : c.is .statementBlock = true → (∀ d ∈ c.operands, MayFinish d) →
    MayFinish c
  | other {c : Cursor} : c.is .statementBlock = false → c.isAny jumpSymbols = false →
    MayFinish c

/-- The `return` is the function's own, being in no function below it. -/
def Returns (f s : Cursor) : Prop := Reaches isFunction f s ∧ s.is .returnStatement = true

theorem not_mayFinish_of_return (h : c.is .returnStatement = true) : ¬ c.MayFinish := by
  intro hc
  cases hc with
  | block hblock =>
    have hkind := (Node.is_iff.1 h).symm.trans (Node.is_iff.1 hblock)
    cases hkind
  | other _ hjumps =>
    have hany : c.isAny jumpSymbols = true :=
      Node.isAny_iff.2 ⟨_, List.mem_cons_self, Node.is_iff.1 h⟩
    rw [hany] at hjumps
    cases hjumps

/-- Statements that end with a `return` are not run to their end. -/
theorem not_mayFinish_of_getLast? (hc : c.is .statementBlock = true)
    (hlast : c.operands.getLast? = some d) (hd : d.is .returnStatement = true) :
    ¬ c.MayFinish := by
  intro h
  cases h with
  | block _ hall => exact not_mayFinish_of_return hd (hall d (List.mem_of_getLast? hlast))
  | other hblock => rw [hc] at hblock; cases hblock

theorem mem_ownNodes : d ∈ c.ownNodes false ↔ Reaches isFunction c d := by
  have hstop : (fun d : Cursor =>
      d.node.isFunction && !(false && d.node.is .arrowFunction)) = isFunction := by
    funext d
    rw [Bool.false_and, Bool.not_false, Bool.and_true]
    rfl
  rw [ownNodes, mem_walkBelowUntil, hstop]

theorem mem_returnValues {f s : Cursor} (h : f.Returns s) :
    s.operands.head? ∈ f.returnValues :=
  List.mem_map.2 ⟨s, List.mem_filter.2 ⟨mem_ownNodes.2 h.1, h.2⟩, rfl⟩

/-- What is looked at in a function that is taken to return single values. -/
theorem returnsScalar_spec {f : Cursor} (h : f.returnsScalar = true) :
    ∃ body, f.child? .body = some body
      ∧ (body.is .statementBlock = false → body.isScalar = true)
      ∧ (body.is .statementBlock = true →
        (∃ last, body.operands.getLast? = some last ∧ last.is .returnStatement = true)
        ∧ ∀ value ∈ f.returnValues, ∃ e, value = some e ∧ e.isScalar = true) := by
  unfold returnsScalar at h
  split at h
  · cases h
  · next body hbody =>
    refine ⟨body, hbody, fun hexpr => ?_, fun hblock => ?_⟩
    · rwa [hexpr, Bool.not_false, if_pos rfl] at h
    · rw [hblock, Bool.not_true, if_neg Bool.false_ne_true] at h
      split at h
      · cases h
      · next last hlast =>
        rw [Bool.and_eq_true, List.all_eq_true] at h
        refine ⟨⟨last, hlast, h.1⟩, fun value hvalue => ?_⟩
        have hscalar := h.2 value hvalue
        cases value with
        | none => cases hscalar
        | some e => exact ⟨e, rfl, hscalar⟩

end Cursor

-- =============================================================== program

open Cursor

namespace Rules

variable {context : RuleContext} {w : Workspace} {r : Rewrite}

/-- A function that is mapped without jQuery returns single values: its body
is an expression that yields nothing else, or a block that is not run to its
end, and each of its own `return`s has an expression that yields nothing
else. -/
theorem map_callback_single (h : r ∈ map.rewrites context w) :
    ∃ array callback f body, r.site.arguments = [array, callback] ∧ callback.unparen = f
      ∧ f.node.isFunctionLiteral = true ∧ f.is .generatorFunction = false
      ∧ f.child? .body = some body
      ∧ (body.is .statementBlock = false → ∀ k, body.MayYield k → k.IsSingle)
      ∧ (body.is .statementBlock = true → ¬ body.MayFinish
        ∧ ∀ s, f.Returns s →
          ∃ e, s.operands.head? = some e ∧ ∀ k, e.MayYield k → k.IsSingle) := by
  obtain ⟨s, hs, h⟩ := replacement_of_mem_rewritesOfSweeps h
  obtain rfl := List.mem_singleton.1 hs
  replace h := Sweep.ofStatics_spec h
  split at h
  · next array callback hargs =>
    obtain ⟨hliteral, h⟩ := unless_eq_ok.1 h
    obtain ⟨-, h⟩ := unless_eq_ok.1 h
    obtain ⟨hreturns, -⟩ := unless_eq_ok.1 h
    simp only [Bool.or_eq_false_iff, Bool.not_eq_false'] at hliteral hreturns
    obtain ⟨hplain, hscalar⟩ := hreturns
    obtain ⟨body, hbody, hexpr, hblock⟩ := returnsScalar_spec hscalar
    refine ⟨array, callback, _, body, hargs, rfl, hliteral.2, hplain, hbody, ?_, ?_⟩
    · exact fun hno k hk => isSingle_of_isScalar (hexpr hno) hk
    · intro hyes
      obtain ⟨⟨last, hlast, hreturn⟩, hvalues⟩ := hblock hyes
      refine ⟨not_mayFinish_of_getLast? hyes hlast hreturn, fun s hs => ?_⟩
      obtain ⟨e, he, hsingle⟩ := hvalues _ (mem_returnValues hs)
      exact ⟨e, he, fun k hk => isSingle_of_isScalar hsingle hk⟩
  · simp [pure_eq_ok] at h

/-- A function with a `return` in a branch, of a string and of a sum. -/
theorem map_callback_single_branch :
    let source := ofString
      "$.map([1], function (v) \x7b if (v) \x7b return \"a\"; \x7d return v + 1; \x7d);"
    ∃ n r array callback f body, parse source = .ok n
      ∧ r ∈ map.rewrites .default (.ofProgram n) ∧ r.site.arguments = [array, callback]
      ∧ callback.unparen = f ∧ f.child? .body = some body ∧ body.is .statementBlock = true
      ∧ f.returnValues.map (·.map (·.code))
        = [some (ofString "\"a\""), some (ofString "v + 1")]
      ∧ ¬ body.MayFinish
      ∧ ∀ s, f.Returns s →
        ∃ e, s.operands.head? = some e ∧ ∀ k, e.MayYield k → k.IsSingle := by
  intro source
  obtain ⟨n, hn, htest⟩ := exists_of_parse_any source
    (fun n => (map.rewrites .default (.ofProgram n)).any fun r =>
      r.site.arguments[1]?.any fun callback =>
        (callback.unparen.child? .body).any (·.is .statementBlock)
          && callback.unparen.returnValues.map (·.map (·.code))
            == [some (ofString "\"a\""), some (ofString "v + 1")])
    (by decide +kernel)
  obtain ⟨r, hr, htest⟩ := List.any_eq_true.1 htest
  obtain ⟨array, callback, f, body, hargs, hf, -, -, hbody, -, hblock⟩ :=
    map_callback_single hr
  subst hf
  rw [hargs, List.getElem?_cons_succ, List.getElem?_cons_zero, Option.any_some,
    Bool.and_eq_true, hbody, Option.any_some, beq_iff_eq] at htest
  obtain ⟨hfinish, hreturns⟩ := hblock htest.1
  exact ⟨n, r, array, callback, _, body, hn, hr, hargs, rfl, hbody, htest.1, htest.2, hfinish,
    hreturns⟩

end Rules

end Codemod
