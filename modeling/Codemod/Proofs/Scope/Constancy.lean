/-
A name that resolves keeps its value.

`resolve?` gives the initializer of a name that nothing else assigns to.
What assigns to a name is said here from the side of the language: a
node has a target (`assigned?`), and parentheses and patterns hand it on
to the names in them (`Targets`). An identifier denotes the name that
its escapes spell (`Denotes`), and a direct `eval` may be written in
parentheses (`isDirectEval`).

The scan for writes finds every target spelled like the name
(`Assigns.mem_writtenBy`), so that a scope which resolves a name has no
undisguised write of it and no undisguised `eval`. Main statement:
`resolve?_constant_iff`. Three disguises are left: an escape in the
name, the word `undefined` as a target, and parentheses or an escape
around `eval`.
-/
import Codemod.Proofs.Effect.Call
import Codemod.Proofs.Scope.Extent

namespace Codemod

/-- The name that an identifier spells, its escapes decoded. -/
def Text.spelledName (t : Text) : Text :=
  match t.unescape with
  | .ok u => u
  | .error _ => t

namespace Cursor

variable {c d f init scope t v x : Cursor} {name : Text}

-- =========================================================== assignments

/-- What an assignment, an update or the head of a loop without a
declaration assigns to. -/
def assigned? (v : Cursor) : Option Cursor :=
  if v.isAny [.assignmentExpression, .augmentedAssignmentExpression] then
    v.child? .left
  else if v.is .updateExpression then v.child? .argument
  else if v.is .forInStatement then
    if (v.child? .kind).isSome then none else v.child? .left
  else none

/-- A target assigns to a name: it is the name, or a part of it to which
parentheses or a pattern hand the assignment on. -/
inductive Targets : Cursor → Cursor → Prop where
  | name {x : Cursor} : x.isAny [.identifier, .undefinedLit] = true → Targets x x
  | paren {t d x : Cursor} : t.is .parenthesizedExpression = true →
    t.operands = [d] → Targets d x → Targets t x
  | part {t d x : Cursor} :
    t.isAny [.objectPattern, .arrayPattern, .restPattern] = true →
    d ∈ t.operands → Targets d x → Targets t x
  | value {t d x : Cursor} : t.is .pairPattern = true → d ∈ t.operands →
    d.node.role = some .value → Targets d x → Targets t x
  | default {t d x : Cursor} : t.is .assignmentPattern = true →
    d ∈ t.operands → d.node.role = some .left → Targets d x → Targets t x
  | shorthand {t x : Cursor} : t.is .objectPattern = true → x ∈ t.operands →
    x.is .shorthandPropertyIdentifierPattern = true → Targets t x
  | shorthandDefault {t d x : Cursor} : t.is .objectPattern = true →
    d ∈ t.operands → d.is .objectAssignmentPattern = true →
    x ∈ d.operands → x.node.role = some .left →
    x.is .shorthandPropertyIdentifierPattern = true → Targets t x

/-- A node assigns to a name. -/
def Assigns (v x : Cursor) : Prop := ∃ t, v.assigned? = some t ∧ t.Targets x

/-- An identifier denotes a name, whichever way both are spelled. -/
def Denotes (x : Cursor) (name : Text) : Prop :=
  x.code.spelledName = name.spelledName

/-- The node calls `eval` by its name, which may stand in parentheses. -/
def isDirectEval (v : Cursor) : Bool :=
  v.is .callExpression && !v.node.isOptional
    && (match v.child? .arguments with
      | some as => as.is .arguments
      | none => false)
    && match v.inner? .function with
      | some f => f.is .identifier && f.code.spelledName == Text.ofString "eval"
      | none => false

/-- Nothing in a scope assigns to the name, and nothing there can do so
through a direct `eval`. -/
def Constant (scope : Cursor) (name : Text) : Prop :=
  ∀ v ∈ scope.walk,
    (∀ x, v.Assigns x → ¬ x.Denotes name) ∧ v.isDirectEval = false

/-- The assignments to a name in a scope are spelled like the name and
not `undefined`, and the word `eval` stands bare where it is called. -/
def Undisguised (scope : Cursor) (name : Text) : Prop :=
  ∀ v ∈ scope.walk,
    (∀ x, v.Assigns x → x.Denotes name → x.code = name ∧ x.is .undefinedLit = false)
    ∧ (v.isDirectEval = true → ∃ f, v.child? .function = some f
      ∧ f.is .identifier = true ∧ f.code = Text.ofString "eval")

-- ===================================================== names in patterns

theorem isOperand_of_mem_operands (h : d ∈ c.operands) :
    d.node.isOperand = true :=
  (List.mem_filter.1 h).2

/-- What a pattern hands on is no name of its own. -/
theorem not_name_of_opensPattern (h : opensPattern t.node = true) :
    t.isAny [.identifier, .shorthandPropertyIdentifierPattern] = false := by
  rw [Bool.eq_false_iff]
  intro hname
  obtain ⟨s, hs, hk⟩ := Node.isAny_iff.1 hname
  simp only [List.mem_cons, List.not_mem_nil, or_false] at hs
  rcases hs with rfl | rfl <;>
    simp [opensPattern, Node.isPattern, Node.isAny, Node.is, hk, patternSymbols] at h

/-- An operand of a pattern binds names there, unless it is a key or a
default value. -/
theorem mem_boundIdentifiers_of_operand (ho : opensPattern t.node = true)
    (hd : d ∈ t.operands) (hbinds : bindsIn t.node d.node = true)
    (hx : x ∈ d.boundIdentifiers) : x ∈ t.boundIdentifiers := by
  rw [boundIdentifiers_eq, not_name_of_opensPattern ho,
    if_neg Bool.false_ne_true, if_pos ho]
  refine List.mem_flatMap.2 ⟨d, mem_children_of_mem_operands hd, ?_⟩
  rw [if_pos hbinds]
  exact hx

theorem opensPattern_of_kind {s : Symbol} (h : t.node.kind = .symbol s)
    (hs : s ∈ patternSymbols) : opensPattern t.node = true := by
  rw [opensPattern, Node.isPattern, Node.isAny_iff.2 ⟨s, hs, h⟩, Bool.true_or]

theorem mem_boundIdentifiers_self {s : Symbol} (h : x.node.kind = .symbol s)
    (hs : s ∈ [Symbol.identifier, .shorthandPropertyIdentifierPattern]) :
    x ∈ x.boundIdentifiers := by
  have hname : x.isAny [.identifier, .shorthandPropertyIdentifierPattern] = true :=
    Node.isAny_iff.2 ⟨s, hs, h⟩
  rw [boundIdentifiers_eq, if_pos hname]
  exact List.mem_singleton.2 rfl

/-- Every name that a target assigns to is found, `undefined` apart. -/
theorem Targets.mem_boundIdentifiers (h : Targets t x)
    (hx : x.is .undefinedLit = false) : x ∈ t.boundIdentifiers := by
  induction h with
  | @name x hk =>
      obtain ⟨s, hs, hk⟩ := Node.isAny_iff.1 hk
      simp only [List.mem_cons, List.not_mem_nil, or_false] at hs
      rcases hs with rfl | rfl
      · exact mem_boundIdentifiers_self hk (by decide)
      · simp [is, Node.is, hk] at hx
  | @paren t d x hk hd _ ih => 
      have hk := Node.is_iff.1 hk
      have hmem : d ∈ t.operands := by rw [hd]; exact List.mem_singleton.2 rfl
      have hone : t.node.operands.length = 1 := by
        rw [← map_node_operands, hd]
        rfl
      refine mem_boundIdentifiers_of_operand ?_ hmem ?_ (ih hx)
      · simp [opensPattern, Node.is, hk, hone]
      · simp [bindsIn, Node.is, Node.isAny, hk, isOperand_of_mem_operands hmem]
  | @part t d x hk hd _ ih =>
      obtain ⟨s, hs, hk⟩ := Node.isAny_iff.1 hk
      have hs' : s ∈ patternSymbols := by
        simp only [List.mem_cons, List.not_mem_nil, or_false] at hs
        rcases hs with rfl | rfl | rfl <;> decide
      refine mem_boundIdentifiers_of_operand (opensPattern_of_kind hk hs') hd ?_ (ih hx)
      simp only [List.mem_cons, List.not_mem_nil, or_false] at hs
      rcases hs with rfl | rfl | rfl <;>
        simp [bindsIn, Node.is, Node.isAny, hk, isOperand_of_mem_operands hd]
  | value hk hd hr _ ih => 
      have hk := Node.is_iff.1 hk
      refine mem_boundIdentifiers_of_operand (opensPattern_of_kind hk (by decide)) hd ?_ (ih hx)
      simp [bindsIn, Node.is, Node.isAny, hk, hr, isOperand_of_mem_operands hd]
  | default hk hd hr _ ih =>
      have hk := Node.is_iff.1 hk
      refine mem_boundIdentifiers_of_operand (opensPattern_of_kind hk (by decide)) hd ?_ (ih hx)
      simp [bindsIn, Node.is, Node.isAny, hk, hr, isOperand_of_mem_operands hd]
  | shorthand hk hd hxk =>
      have hk := Node.is_iff.1 hk
      refine mem_boundIdentifiers_of_operand (opensPattern_of_kind hk (by decide)) hd ?_
        (mem_boundIdentifiers_self (Node.is_iff.1 hxk) (by decide))
      simp [bindsIn, Node.is, Node.isAny, hk, isOperand_of_mem_operands hd]
  | shorthandDefault hk hd hdk hxd hr hxk => 
      have hk := Node.is_iff.1 hk
      have hdk := Node.is_iff.1 hdk
      refine mem_boundIdentifiers_of_operand (opensPattern_of_kind hk (by decide)) hd ?_
        (mem_boundIdentifiers_of_operand (opensPattern_of_kind hdk (by decide)) hxd ?_
          (mem_boundIdentifiers_self (Node.is_iff.1 hxk) (by decide)))
      · simp [bindsIn, Node.is, Node.isAny, hk, isOperand_of_mem_operands hd]
      · simp [bindsIn, Node.is, Node.isAny, hdk, hr, isOperand_of_mem_operands hxd]

/-- Parentheses around a target hand the assignment on. -/
theorem Targets.unparenWithin (h : Targets t x) (fuel : Nat) :
    Targets (unparenWithin fuel t) x := by
  induction fuel generalizing t with
  | zero => exact h
  | succ fuel ih =>
      rcases unparenWithin_cases (fuel + 1) t with ht | ⟨d, f, hk, hd, hf, ht⟩
      · rw [ht]
        exact h
      · obtain rfl : fuel = f := by omega
        rw [ht]
        refine ih ?_
        cases h <;> simp_all [is, isAny, Node.is, Node.isAny]

/-- What is left of parentheses around an expression is below it. -/
theorem unparen_ne_of_operands (hk : t.is .parenthesizedExpression = true)
    (hd : t.operands = [d]) : t.unparen ≠ t := by
  intro h
  have hmem : d ∈ t.children :=
    mem_children_of_mem_operands (by rw [hd]; exact List.mem_singleton.2 rfl)
  have hlt := Node.size_lt_of_mem_children (node_mem_of_mem_children hmem)
  have hwalk : t ∈ d.walk := by
    rw [← h, unparen_of_operands hk hd]
    exact unparen_mem_walk d
  have hle := Node.size_le_of_mem_walk (node_mem_walk hwalk)
  omega

/-- With its parentheses off a target is a name or a pattern. -/
theorem Targets.cases_of_unparen (h : Targets t x) (ht : t.unparen = t) :
    (t = x ∧ (t.is .identifier = true ∨ t.is .undefinedLit = true))
      ∨ t.node.isPattern = true := by
  have pattern {s : Symbol} (hk : t.is s = true) (hs : s ∈ patternSymbols) :
      t.node.isPattern = true :=
    Node.isAny_iff.2 ⟨s, hs, Node.is_iff.1 hk⟩
  cases h with
  | name hk =>
      obtain ⟨s, hs, hk⟩ := Node.isAny_iff.1 hk
      simp only [List.mem_cons, List.not_mem_nil, or_false] at hs
      rcases hs with rfl | rfl
      · exact Or.inl ⟨rfl, Or.inl (Node.is_iff.2 hk)⟩
      · exact Or.inl ⟨rfl, Or.inr (Node.is_iff.2 hk)⟩
  | paren hk hd _ => exact absurd ht (unparen_ne_of_operands hk hd)
  | part hk _ _ =>
      obtain ⟨s, hs, hk⟩ := Node.isAny_iff.1 hk
      simp only [List.mem_cons, List.not_mem_nil, or_false] at hs
      refine Or.inr (pattern (Node.is_iff.2 hk) ?_)
      rcases hs with rfl | rfl | rfl <;> decide
  | value hk _ _ _ => exact Or.inr (pattern hk (by decide))
  | default hk _ _ _ => exact Or.inr (pattern hk (by decide))
  | shorthand hk _ _ => exact Or.inr (pattern hk (by decide))
  | shorthandDefault hk _ _ _ _ _ => exact Or.inr (pattern hk (by decide))

/-- The names that a node assigns to are among those the scan reports,
`undefined` apart. -/
theorem Assigns.mem_writtenBy (h : v.Assigns x) (hx : x.is .undefinedLit = false) :
    x ∈ v.writtenBy := by
  obtain ⟨t, ht, htx⟩ := h
  have htarget : v.writeTarget? = some t.unparen := by
    unfold assigned? at ht
    unfold writeTarget? inner?
    split at ht
    · next hk => rw [if_pos hk, ht]; rfl
    · next hk =>
        rw [if_neg hk]
        split at ht
        · next hk' => rw [if_pos hk', ht]; rfl
        · next hk' =>
            rw [if_neg hk']
            split at ht
            · next hfor =>
                split at ht
                · cases ht
                · next hkind =>
                    have hnone : (v.child? .kind).isNone = true := by
                      simpa using hkind
                    rw [hfor, hnone, Bool.and_self, if_pos rfl, ht]
                    rfl
            · cases ht
  have htx : Targets t.unparen x := htx.unparenWithin t.node.size
  rw [writtenBy, htarget]
  show x ∈ if t.unparen.is .identifier then _ else _
  cases htx.cases_of_unparen (unparen_unparen t) with
  | inl hname =>
      obtain ⟨rfl, hk⟩ := hname
      rcases hk with hk | hk
      · rw [if_pos hk]
        exact List.mem_singleton.2 rfl
      · rw [hk] at hx
        cases hx
  | inr hpattern =>
      have hname : t.unparen.is .identifier = false := by
        obtain ⟨s, hs, hk⟩ := Node.isAny_iff.1 hpattern
        exact Node.is_false_of_kind hk (by rintro rfl; revert hs; decide)
      rw [hname, if_neg Bool.false_ne_true, if_pos hpattern]
      exact htx.mem_boundIdentifiers hx

-- ================================================================ scopes

/-- Where no name is written in a scope, what assigns to a name of this
spelling assigns to `undefined`. -/
theorem Assigns.is_undefinedLit (h : v.Assigns x) (hv : v ∈ scope.walk)
    (hwritten : scope.isWritten x.code = false) : x.is .undefinedLit = true := by
  by_contra hx
  have hmem : x ∈ scope.writes :=
    List.mem_flatMap.2 ⟨v, hv, h.mem_writtenBy (by simpa using hx)⟩
  have hany : scope.isWritten x.code = true :=
    List.any_eq_true.2 ⟨x, hmem, beq_self_eq_true _⟩
  rw [hwritten] at hany
  cases hany

/-- A call of the bare word `eval` makes a scope dynamic. -/
theorem hasDynamicScope_of_bare_eval (hv : v ∈ scope.walk)
    (hk : v.is .callExpression = true) (hf : v.child? .function = some f)
    (hfk : f.is .identifier = true) (hcode : f.code = Text.ofString "eval") :
    scope.hasDynamicScope = true := by
  refine List.any_eq_true.2 ⟨v, hv, ?_⟩
  simp [hk, hf, hfk, hcode]

/-- Where the scan finds no write of a name and nothing dynamic, the name
is constant just when no assignment to it and no direct `eval` is
disguised. -/
theorem constant_iff (hwritten : scope.isWritten name = false)
    (hdyn : scope.hasDynamicScope = false) :
    scope.Constant name ↔ scope.Undisguised name := by
  constructor
  · intro hconst v hv
    obtain ⟨hassigns, heval⟩ := hconst v hv
    refine ⟨fun x hx hden => absurd hden (hassigns x hx), fun he => ?_⟩
    rw [heval] at he
    cases he
  · intro hplain v hv
    obtain ⟨hassigns, heval⟩ := hplain v hv
    constructor
    · intro x hx hden
      obtain ⟨rfl, hk⟩ := hassigns x hx hden
      rw [hx.is_undefinedLit hv hwritten] at hk
      cases hk
    · rw [Bool.eq_false_iff]
      intro he
      obtain ⟨f, hf, hfk, hcode⟩ := heval he
      have hk : v.is .callExpression = true := by
        simp only [isDirectEval, Bool.and_eq_true] at he
        exact he.1.1.1
      rw [hasDynamicScope_of_bare_eval hv hk hf hfk hcode] at hdyn
      cases hdyn

/-- A name that resolves is constant in the scope that declares it just
when no assignment to it and no direct `eval` there is disguised: the
name is written with its own spelling, it is not the word `undefined`,
and `eval` is called by the bare word. -/
theorem resolve?_constant_iff (h : c.resolve? name = some init) :
    ∃ scope ds, c.binding? name = some (scope, ds)
      ∧ (scope.Constant name ↔ scope.Undisguised name) := by
  obtain ⟨-, -, scope, d, -, hbinding, -, -, -, -, -, hdyn, hwritten⟩ :=
    resolve?_eq_some_iff.1 h
  exact ⟨scope, [d], hbinding, constant_iff hwritten hdyn⟩

/-- The variable of a function, which hides a name that the program
writes. -/
theorem resolve?_constant_in_function :
    ∃ n c init, parse (Text.ofString
        "w = 1; function f() \x7b var w = $(a); w.hide(); \x7d") = .ok n
      ∧ c ∈ (top n).walk ∧ c.resolve? (Text.ofString "w") = some init
      ∧ ∃ scope ds, c.binding? (Text.ofString "w") = some (scope, ds)
        ∧ (scope.Constant (Text.ofString "w")
          ↔ scope.Undisguised (Text.ofString "w")) := by
  have h : holdsAt (Text.ofString
      "w = 1; function f() \x7b var w = $(a); w.hide(); \x7d") [1, 3, 2, 0, 0, 0]
      (fun c => (c.resolve? (Text.ofString "w")).isSome) = true := by
    decide +kernel
  obtain ⟨n, c, hn, hc, hr⟩ := exists_of_holdsAt h
  obtain ⟨init, hr⟩ := Option.isSome_iff_exists.1 hr
  exact ⟨n, c, init, hn, hc, hr, resolve?_constant_iff hr⟩

/-- Parentheses around `eval` disguise the call: the name resolves, and
the scope that declares it calls `eval` directly. -/
theorem resolve?_overlooks_parenthesized_eval :
    ∃ n c init scope ds, parse (Text.ofString "var w = 1; (eval)(\"w = 2\"); w;")
        = .ok n ∧ c ∈ (top n).walk
      ∧ c.resolve? (Text.ofString "w") = some init
      ∧ c.binding? (Text.ofString "w") = some (scope, ds)
      ∧ ∃ v ∈ scope.walk, v.isDirectEval = true := by
  have h : holdsAt (Text.ofString "var w = 1; (eval)(\"w = 2\"); w;") [2, 0]
      (fun c => (c.resolve? (Text.ofString "w")).isSome
        && (c.binding? (Text.ofString "w")).any fun (scope, _) =>
          scope.walk.any isDirectEval) = true := by
    decide +kernel
  obtain ⟨n, c, hn, hc, ht⟩ := exists_of_holdsAt h
  simp only [Bool.and_eq_true, Option.any_eq_true, List.any_eq_true] at ht
  obtain ⟨hr, ⟨scope, ds⟩, hb, v, hv, he⟩ := ht
  obtain ⟨init, hr⟩ := Option.isSome_iff_exists.1 hr
  exact ⟨n, c, init, scope, ds, hn, hc, hr, hb, v, hv, he⟩

end Cursor
end Codemod
