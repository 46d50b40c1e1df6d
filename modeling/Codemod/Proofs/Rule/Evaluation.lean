/-
The values of expressions.

`val.meaning n` is what a node stands for under a valuation: literals
denote strings and integers, names what the valuation says, and the string
methods, `length`, comparisons and the operators `!` and `-` what the
language makes of values. What else there is is left to the valuation.
Parentheses and the place of an expression make no difference
(`meaning_strip`, `meaning_placed`), an integer literal has the integer
that is read from it (`evaluates_integer`), and a built call has what the
method gives (`evaluates_methodCall`).
-/
import Codemod.Proofs.Rule.Presence
import Codemod.Proofs.Text.Literal
import Codemod.Proofs.Text.Units
import Codemod.Proofs.Tree.Print

namespace Codemod

open Text

-- ================================================================ values

/-- What an expression evaluates to. -/
inductive Datum where
  | text (s : Units)
  | number (k : Int)
  | truth (b : Bool)
  /-- Any other value. -/
  | other (tag : Nat)
deriving DecidableEq

/-- What a node stands for. -/
inductive Meaning where
  | value (v : Datum)
  /-- A method, still to be called on its receiver. -/
  | method (receiver : Datum) (name : Text)
  /-- The values of arguments. -/
  | row (args : List Datum)
deriving DecidableEq

def Meaning.value? : Meaning → Option Datum
  | value v => some v
  | _ => none

/-- What stands alone. -/
def Meaning.sole? : List Meaning → Option Meaning
  | [m] => some m
  | _ => none

/-- A method that takes a start and perhaps an end or a length. -/
def cutWith (cut : Int → Option Int → Units) : List Datum → Option Datum
  | [] => some (.text (cut 0 none))
  | [.number a] => some (.text (cut a none))
  | [.number a, .number n] => some (.text (cut a (some n)))
  | _ => none

/-- A method that takes a string to look for. -/
def searchWith (search : Units → Datum) : List Datum → Option Datum
  | [.text x] => some (search x)
  | _ => none

/-- The value of a method of a string. -/
def Units.call? (s : Units) (name : Text) (args : List Datum) : Option Datum :=
  if name = ofString "slice" then cutWith s.slice args
  else if name = ofString "substr" then cutWith s.substr args
  else if name = ofString "substring" then cutWith s.substring args
  else if name = ofString "indexOf" then searchWith (fun x => .number (s.indexOf x)) args
  else if name = ofString "includes" then searchWith (fun x => .truth (s.includes x)) args
  else if name = ofString "startsWith" then
    searchWith (fun x => .truth (s.startsWith x)) args
  else none

/-- The value of a property of a value, when it is known. -/
def Datum.property? (v : Datum) (name : Text) : Option Meaning :=
  match v with
  | .text s =>
    if name = ofString "length" then some (.value (.number s.length))
    else some (.method v name)
  | _ => none

/-- The value of an operator in front of a value. -/
def Datum.prefixed? (op : Text) : Datum → Option Datum
  | .truth b => if op = ofString "!" then some (.truth !b) else none
  | .number k => if op = ofString "-" then some (.number (-k)) else none
  | _ => none

/-- The outcome of a comparison. -/
def Comparator.compare? (r : Comparator) : Datum → Datum → Option Bool
  | .number a, .number b => some (r.holds a b)
  | .text s, .text t =>
    match r with
    | same => some (s == t)
    | different => some (s != t)
    | _ => none
  | _, _ => none

/-- Where sameness is known, so is difference. -/
theorem Comparator.compare?_different {u v : Datum} {b : Bool}
    (h : same.compare? u v = some b) : different.compare? u v = some !b := by
  unfold compare? at h ⊢
  split at h
  · rw [← Option.some.inj h]
    rfl
  · rw [← Option.some.inj h]
    rfl
  · cases h

-- =========================================================== evaluation

/-- What names stand for, and the expressions that are not looked into. -/
structure Valuation where
  name : Text → Datum
  other : Node → Datum

theorem symbol?_of_is {n : Node} {s : Symbol} (h : n.is s = true) : n.symbol? = some s := by
  rw [Node.symbol?, Node.is_iff.1 h]

namespace Valuation

variable (val : Valuation)

/-- What a node stands for, given what its children do: by role, and the
operands in order. -/
def compose (n : Node) (part? : Role → Option Meaning) (operands : List Meaning) :
    Option Meaning :=
  match n.symbol? with
  | some .identifier => some (.value (val.name n.code))
  | some .string | some .templateString =>
    n.stringValue.toOption.join.map fun t => .value (.text t.units)
  | some .number => (Numeral.spelled? n.code).map fun k : Nat => .value (.number k)
  | some .parenthesizedExpression => Meaning.sole? operands
  | some .arguments =>
    if n.operands.any (·.is .spreadElement) then none
    else (operands.mapM Meaning.value?).map .row
  | some .memberExpression =>
    match n.propertyName?, part? .object with
    | some name, some (.value v) => v.property? name
    | _, _ => none
  | some .callExpression =>
    match part? .function, (part? .arguments).getD (.row []) with
    | some (.method (.text s) name), .row args => (s.call? name args).map .value
    | _, _ => none
  | some .unaryExpression =>
    match n.child? .operator, part? .argument with
    | some op, some (.value v) => (v.prefixed? op.code).map .value
    | _, _ => none
  | some .binaryExpression =>
    match n.child? .operator, part? .left, part? .right with
    | some op, some (.value l), some (.value r) =>
      (Comparator.ofWord? op.code).bind fun c => (c.compare? l r).map (.value <| .truth ·)
    | _, _, _ => none
  | _ => none

mutual

/-- What a node stands for. -/
def meaning : Node → Meaning
  | ⟨i, k, b, r, l, t, cs, z⟩ =>
    (val.compose ⟨i, k, b, r, l, t, cs, z⟩
      (fun role => ((cs.zip (meanings cs)).find? (·.1.role == some role)).map (·.2))
      (((cs.zip (meanings cs)).filter (·.1.isOperand)).map (·.2))).getD
        (.value (val.other (Node.placed ⟨i, k, b, r, l, t, cs, z⟩ none [])))

/-- What neighbouring nodes stand for. -/
def meanings : List Node → List Meaning
  | [] => []
  | c :: cs => meaning c :: meanings cs

end

/-- The expression has the value. -/
def Evaluates (n : Node) (v : Datum) : Prop := val.meaning n = .value v

variable {val} {n e : Node} {m : Meaning} {v : Datum}

theorem meanings_eq (cs : List Node) : val.meanings cs = cs.map val.meaning := by
  induction cs with
  | nil => rfl
  | cons c cs ih => rw [meanings, ih, List.map_cons]

/-- A node is composed of what its children stand for. -/
theorem meaning_eq (n : Node) :
    val.meaning n = (val.compose n (fun r => (n.child? r).map val.meaning)
      (n.operands.map val.meaning)).getD (.value (val.other (n.placed none []))) := by
  obtain ⟨i, k, b, r, l, t, cs, z⟩ := n
  have hzip : cs.zip (val.meanings cs) = cs.map fun c => (c, val.meaning c) := by
    rw [meanings_eq, List.zip_map_right, List.zip_eq_zipWith, List.zipWith_self, List.map_map]
    rfl
  rw [meaning, hzip]
  congr 2
  · funext role
    rw [List.find?_map, Option.map_map]
    rfl
  · rw [List.filter_map, List.map_map]
    rfl

theorem meaning_of_compose
    (h : val.compose n (fun r => (n.child? r).map val.meaning) (n.operands.map val.meaning)
      = some m) : val.meaning n = m := by
  rw [meaning_eq, h, Option.getD_some]

@[simp] theorem meaning_placed (n : Node) (r : Option Role) (l : Text) :
    val.meaning (n.placed r l) = val.meaning n := by
  have hvalue : (n.placed r l).stringValue = n.stringValue := by
    rw [Node.stringValue, Node.code_placed]
    rfl
  have hcompose : val.compose (n.placed r l) = val.compose n := by
    funext part? operands
    have hsymbol : (n.placed r l).symbol? = n.symbol? := rfl
    have hname : (n.placed r l).propertyName? = n.propertyName? := rfl
    have hchild (role : Role) : (n.placed r l).child? role = n.child? role := rfl
    have hoperands : (n.placed r l).operands = n.operands := rfl
    simp only [compose, hsymbol, hname, hchild, hoperands, hvalue, Node.code_placed]
  rw [meaning_eq, meaning_eq, hcompose]
  rfl

-- ========================================================== parentheses

theorem meaning_parens (hk : n.is .parenthesizedExpression = true) (he : n.operands = [e]) :
    val.meaning n = val.meaning e := by
  apply meaning_of_compose
  rw [compose, symbol?_of_is hk, he]
  rfl

/-- Parentheses make no difference. -/
theorem meaning_strip (n : Node) : val.meaning n.strip = val.meaning n := by
  induction n using Node.ind with
  | h n ih =>
      by_cases hone : n.is .parenthesizedExpression = true ∧ ∃ e, n.operands = [e]
      · obtain ⟨hk, e, he⟩ := hone
        have hmem : e ∈ n.children := List.mem_of_mem_filter
          (show e ∈ n.operands by rw [he]; exact List.mem_singleton.2 rfl)
        rw [Node.strip_of_operands hk he, ih e hmem, meaning_parens hk he]
      · rw [Node.strip_of_no_operand fun hk e he => hone ⟨hk, e, he⟩]

theorem meaning_unparen (c : Cursor) : val.meaning c.unparen.node = val.meaning c.node := by
  rw [Cursor.node_unparen, meaning_strip]

-- ============================================================= literals

theorem evaluates_identifier (hk : n.is .identifier = true) :
    val.Evaluates n (val.name n.code) := by
  apply meaning_of_compose
  rw [compose, symbol?_of_is hk]

/-- A name that is looked for has the value of the name. -/
theorem evaluates_isIdentifier {t : Text} (h : n.isIdentifier t = true) :
    val.Evaluates n (val.name t) := by
  simp only [Node.isIdentifier, Bool.and_eq_true, beq_iff_eq] at h
  have hcode : n.code = t := by
    obtain ⟨i, k, b, r, l, x, cs, z⟩ := n
    obtain rfl : x = some t := h.2
    rfl
  rw [← hcode]
  exact evaluates_identifier h.1

theorem isAny_of_stringValue {t : Text} (h : n.stringValue = .ok (some t)) :
    n.isAny [.string, .templateString] = true := by
  unfold Node.stringValue at h
  split at h
  · cases h
  · next hk => simpa using hk

theorem evaluates_string {t : Text} (h : n.stringValue = .ok (some t)) :
    val.Evaluates n (.text t.units) := by
  have hk := isAny_of_stringValue h
  apply meaning_of_compose
  simp only [Node.isAny, List.any_cons, List.any_nil, Bool.or_false, Bool.or_eq_true] at hk
  rcases hk with hk | hk
  all_goals
    rw [compose, symbol?_of_is hk, h]
    rfl

theorem evaluates_number {k : Nat} (hk : n.is .number = true)
    (h : Numeral.spelled? n.code = some k) : val.Evaluates n (.number k) := by
  apply meaning_of_compose
  rw [compose, symbol?_of_is hk]
  simp only [h, Option.map_some]

theorem evaluates_prefixed {o a : Node} {v w : Datum} (hk : n.is .unaryExpression = true)
    (ho : n.child? .operator = some o) (ha : n.child? .argument = some a)
    (hv : val.Evaluates a v) (hw : v.prefixed? o.code = some w) : val.Evaluates n w := by
  apply meaning_of_compose
  rw [compose, symbol?_of_is hk]
  simp only [ho, ha, Option.map_some, show val.meaning a = .value v from hv, hw]

/-- Digits, perhaps behind a minus, have the value they spell. -/
theorem evaluates_spells {negative : Bool} {t : Text} {k : Nat} (h : n.Spells negative t)
    (ht : Numeral.spelled? t = some k) :
    val.Evaluates n (.number (signed negative (Int.ofNat k))) := by
  induction h with
  | number hk => exact evaluates_number hk ht
  | minus hk hop hcode ha _ ih =>
      apply evaluates_prefixed hk hop ha (ih ht)
      rw [hcode]
      rfl
  | parens hk he _ ih => exact (meaning_parens hk he).trans (ih ht)

/-- The integer that is read from a literal is its value. -/
theorem evaluates_integer {c : Cursor} {k : Int} (h : c.integerValue = .ok (some k)) :
    val.Evaluates c.node (.number k) := by
  obtain ⟨negative, t, m, hs, -, -, hread, rfl⟩ := Cursor.integerValue_eq_some_iff.1 h
  exact evaluates_spells hs (Numeral.spelled?_of_readDigits hread)

-- ================================================================ calls

section Calls

variable {s : Units} {name : Text} {vs : List Datum} {f o : Node}

theorem meaning_member (hname : n.propertyName? = some name)
    (ho : n.child? .object = some o) (hs : val.Evaluates o (.text s))
    (hne : name ≠ ofString "length") : val.meaning n = .method (.text s) name := by
  apply meaning_of_compose
  rw [compose, symbol?_of_is (Cursor.is_of_propertyName? hname)]
  simp only [hname, ho, Option.map_some, show val.meaning o = _ from hs, Datum.property?,
    if_neg hne]

theorem evaluates_length (hname : n.propertyName? = some (ofString "length"))
    (ho : n.child? .object = some o) (hs : val.Evaluates o (.text s)) :
    val.Evaluates n (.number s.length) := by
  apply meaning_of_compose
  rw [compose, symbol?_of_is (Cursor.is_of_propertyName? hname)]
  simp only [hname, ho, Option.map_some, show val.meaning o = _ from hs, Datum.property?,
    if_true]

theorem meaning_arguments (hk : n.is .arguments = true)
    (hspread : n.operands.any (·.is .spreadElement) = false)
    (hvs : n.operands.map val.meaning = vs.map .value) : val.meaning n = .row vs := by
  have hvalues : (vs.map Meaning.value).mapM Meaning.value? = some vs := by
    clear hvs
    induction vs with
    | nil => rfl
    | cons v vs ih =>
        rw [List.map_cons, List.mapM_cons, ih]
        rfl
  apply meaning_of_compose
  rw [compose, symbol?_of_is hk]
  simp only [hspread, hvs, hvalues, Bool.false_eq_true, if_false, Option.map_some]

/-- A call of a string's method has what the method gives. -/
theorem evaluates_call {v : Datum} (hk : n.is .callExpression = true)
    (hf : n.child? .function = some f) (hmethod : val.meaning f = .method (.text s) name)
    (hrow : ((n.child? .arguments).map val.meaning).getD (.row []) = .row vs)
    (hv : s.call? name vs = some v) : val.Evaluates n v := by
  apply meaning_of_compose
  rw [compose, symbol?_of_is hk]
  simp only [hf, Option.map_some, hmethod, hrow, hv]

theorem evaluates_comparison {op l r : Node} {u v : Datum} {c : Comparator} {b : Bool}
    (hk : n.is .binaryExpression = true) (hop : n.child? .operator = some op)
    (hl : n.child? .left = some l) (hr : n.child? .right = some r)
    (hc : Comparator.ofWord? op.code = some c) (hu : val.Evaluates l u)
    (hv : val.Evaluates r v) (hb : c.compare? u v = some b) :
    val.Evaluates n (.truth b) := by
  apply meaning_of_compose
  rw [compose, symbol?_of_is hk]
  simp only [hop, hl, hr, Option.map_some, show val.meaning l = _ from hu,
    show val.meaning r = _ from hv, hc, Option.bind_some, hb]

end Calls

-- =================================================== built expressions

section Built

open Build

variable {s : Units} {name : Text} {args : List Node} {vs : List Datum}

theorem operand_of_isPrimary {parent : Symbol} {role : Role}
    (h : e.kind.isAny primarySymbols = true) : operand e parent role = e := by
  rw [operand, needsParentheses, h, if_pos rfl, if_neg (by decide)]

/-- The built arguments are those given. -/
theorem map_operands_arguments {β : Type} {g : Node → β}
    (hg : ∀ n r l, g (n.placed r l) = g n) (h : ∀ a ∈ args, a.isOperand = true) :
    (arguments args).operands.map g = args.map g := by
  have htail : ∀ es : List Node, (∀ a ∈ es, a.isOperand = true) →
      ((es.flatMap fun d => [Node.token ",", d.placed none [.scalar ' ']]).filter
        Node.isOperand).map g = es.map g := by
    intro es hes
    induction es with
    | nil => rfl
    | cons e es ih =>
        obtain ⟨he, hes⟩ := List.forall_mem_cons.1 hes
        have hplaced : (e.placed none [.scalar ' ']).isOperand = true := he
        rw [List.flatMap_cons, List.filter_append, List.map_append, ih hes, List.map_cons]
        rw [List.filter_cons_of_neg (by decide), List.filter_cons_of_pos hplaced]
        simp only [List.filter_nil, List.map_cons, List.map_nil, hg, List.singleton_append]
  show ((Node.token "(" :: commaSeparated args ++ [Node.token ")"]).filter Node.isOperand).map g
    = args.map g
  rw [List.cons_append, List.filter_cons_of_neg (by decide), List.filter_append,
    List.filter_cons_of_neg (by decide), List.filter_nil, List.append_nil]
  cases args with
  | nil => rfl
  | cons e es =>
      obtain ⟨he, hes⟩ := List.forall_mem_cons.1 h
      have hplaced : (e.placed none []).isOperand = true := he
      rw [commaSeparated, List.filter_cons_of_pos hplaced, List.map_cons, hg, htail es hes,
        List.map_cons]

theorem evaluates_methodCall {v : Datum} (hp : e.kind.isAny primarySymbols = true)
    (he : val.Evaluates e (.text s)) (hne : name ≠ ofString "length")
    (hargs : ∀ a ∈ args, a.isOperand = true)
    (hspread : ∀ a ∈ args, a.is .spreadElement = false)
    (hvs : args.map val.meaning = vs.map .value) (hv : s.call? name vs = some v) :
    val.Evaluates (methodCall e name args) v := by
  apply evaluates_call (f := inRole (member e name) .function) rfl rfl
  · rw [inRole, meaning_placed]
    apply meaning_member (o := inRole (operand e .memberExpression .object) .object) rfl rfl
    · rw [operand_of_isPrimary hp, Evaluates, inRole, meaning_placed, he]
    · exact hne
  · show val.meaning (inRole (arguments args) .arguments) = .row vs
    rw [inRole, meaning_placed]
    apply meaning_arguments rfl
    · have hmap := map_operands_arguments (g := fun a => a.is .spreadElement)
        (fun _ _ _ => rfl) hargs
      show (arguments args).operands.any (id ∘ fun a => a.is .spreadElement) = false
      rw [← List.any_map, hmap, List.any_map, List.any_eq_false]
      exact fun a ha => Bool.eq_false_iff.1 (hspread a ha)
    · rw [map_operands_arguments meaning_placed hargs, hvs]
  · exact hv

theorem evaluates_negatedIf {negated b : Bool} (hp : e.kind.isAny primarySymbols = true)
    (h : val.Evaluates e (.truth b)) :
    val.Evaluates (negatedIf negated e) (.truth (b != negated)) := by
  cases negated with
  | false => simpa [negatedIf] using h
  | true =>
      apply evaluates_prefixed (o := inRole (.token "!") .operator)
        (a := inRole (operand e .unaryExpression .argument) .argument) rfl rfl rfl
      · rw [operand_of_isPrimary hp, Evaluates, inRole, meaning_placed, h]
      · rw [Bool.bne_true]
        rfl

end Built

end Valuation

end Codemod
