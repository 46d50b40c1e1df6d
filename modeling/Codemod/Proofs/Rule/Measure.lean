/-
Weighing what a program uses.

A tree weighs what its uses weigh (`Node.tally`). Expressions that the
rules build weigh what their operands weigh in their places, and what is
new in them (`tally_call`, `tally_methodCall`). In return a call weighs
what its function and its arguments weigh (`Cursor.tally_call`), so that
the two can be compared part by part.
-/
import Mathlib.Algebra.Order.BigOperators.Group.List
import Mathlib.Algebra.Order.Ring.Nat
import Mathlib.Data.List.Perm.Subperm
import Codemod.Proofs.Rule.Alike

namespace Codemod

/-- What uses weigh together. -/
def weigh (f : Use → Nat) (us : List Use) : Nat := (us.map f).sum

section Weigh

variable {f : Use → Nat}

@[simp] theorem weigh_nil : weigh f [] = 0 := rfl

@[simp] theorem weigh_cons (u : Use) (us : List Use) :
    weigh f (u :: us) = f u + weigh f us := by
  simp [weigh]

@[simp] theorem weigh_append (us vs : List Use) :
    weigh f (us ++ vs) = weigh f us + weigh f vs := by
  simp [weigh]

theorem weigh_flatMap {α : Type} (g : α → List Use) (l : List α) :
    weigh f (l.flatMap g) = (l.map fun a => weigh f (g a)).sum := by
  induction l with
  | nil => rfl
  | cons a l ih => simp [ih]

/-- What weighs nothing may be left out. -/
theorem weigh_filter {q : Use → Bool} (h : ∀ u, q u = false → f u = 0)
    (us : List Use) : weigh f (us.filter q) = weigh f us := by
  induction us with
  | nil => rfl
  | cons u us ih =>
      rw [List.filter_cons, weigh_cons, ← ih]
      cases hq : q u with
      | true => simp
      | false => simp [h u hq]

theorem weigh_le {g : Use → Nat} {us vs : List Use} {R : Use → Use → Prop}
    (h : List.Forall₂ R us vs) (hR : ∀ u v, R u v → f u ≤ g v) :
    weigh f us ≤ weigh g vs := by
  induction h with
  | nil => exact Nat.le_refl _
  | cons hr _ ih =>
      rw [weigh_cons, weigh_cons]
      exact Nat.add_le_add (hR _ _ hr) ih

end Weigh

-- =============================================================== places

/-- What a call is used for where it stands. -/
def Place.useOfCall (p : Place) : List Use :=
  match p.standing.outside with
  | .callee => [.recalled]
  | .list => [.tagged]
  | .argument => [.argument]
  | _ => []

/-- What any other expression is used for where it stands, calls of it
apart. -/
def Place.useOfValue (p : Place) : List Use :=
  match p.standing with
  | .list => [.tagged]
  | .argument => [.argument]
  | _ => []

namespace Node

variable {f : Use → Nat} {p : Place} {n : Node} {d : Nat} {fs : List Frame}
  {s : Symbol}

/-- What the uses of a tree weigh, standing in a place. -/
def tally (f : Use → Nat) (p : Place) (n : Node) : Nat := weigh f (n.uses p)

/-- What a tree weighs by itself, in so many receivers and arguments. -/
def weight (f : Use → Nat) (d : Nat) (fs : List Frame) (n : Node) : Nat :=
  n.tally f ⟨.plain, d, fs⟩

theorem tally_eq (f : Use → Nat) (p : Place) (n : Node) :
    n.tally f p = (n.children.map fun c => c.tally f (p.below n.head c.role)).sum
      + (weigh f (p.use n.head) + weigh f (p.declared n)) := by
  rw [tally, uses_eq, weigh_append, weigh_append, weigh_flatMap]
  rfl

/-- Most nodes declare nothing. -/
theorem tally_of_kind (hk : n.is s = true) (hs : s ∉ introducingSymbols) :
    n.tally f p = (n.children.map fun c => c.tally f (p.below n.head c.role)).sum
      + weigh f (p.use n.head) := by
  rw [tally_eq, declared_of_kind hk hs, weigh_nil, Nat.add_zero]

@[simp] theorem tally_placed (n : Node) (r : Option Role) (l : Text) :
    (n.placed r l).tally f p = n.tally f p := by
  rw [tally, tally, uses_placed]

theorem tally_children_nil (h : n.children = []) :
    n.tally f p = weigh f (p.use n.head) := by
  rw [tally, uses_children_nil h]

@[simp] theorem weight_placed (n : Node) (r : Option Role) (l : Text) :
    (n.placed r l).weight f d fs = n.weight f d fs :=
  tally_placed n r l

theorem weight_children_nil (h : n.children = []) : n.weight f d fs = 0 := by
  rw [weight, tally_children_nil h, use_plain, weigh_nil]

-- =================================================== apart from the place

/-- What is declared depends on the scopes alone. -/
theorem declared_eq (p : Place) (n : Node) :
    p.declared n = (Place.mk .plain p.depth p.frames).declared n := rfl

/-- A node weighs what it weighs by itself, and what it is used for. -/
theorem tally_eq_weight (h : ∀ c ∈ n.children,
      p.below n.head c.role
        = (Place.mk .plain p.depth p.frames).below n.head c.role) :
    n.tally f p = n.weight f p.depth p.frames + weigh f (p.use n.head) := by
  rw [weight, tally_eq, tally_eq, use_plain, weigh_nil, ← declared_eq,
    List.map_congr_left fun c hc => by rw [h c hc]]
  omega

/-- The node is an expression of its own, not a name, a list or a block
in one. -/
structure IsWhole (n : Node) : Prop where
  operand : n.isOperand = true
  property : n.is .propertyIdentifier = false
  list : n.is .arguments = false
  block : n.is .statementBlock = false

/-- The kinds of node that are no expressions of their own. -/
def partialSymbols : List Symbol :=
  [.comment, .propertyIdentifier, .arguments, .statementBlock]

theorem isWhole_of_kind (hn : n.named = true) (hk : n.is s = true)
    (hs : s ∉ partialSymbols) : n.IsWhole := by
  have hne : ∀ t ∈ partialSymbols, n.is t = false := fun t ht =>
    is_false_of_kind (is_iff.1 hk) fun heq => hs (heq ▸ ht)
  refine ⟨?_, hne _ (by decide), hne _ (by decide), hne _ (by decide)⟩
  rw [isOperand, hn, hne .comment (by decide)]
  rfl

/-- Where it is neither called nor a receiver an expression weighs what it
weighs by itself, and what it is used for. -/
theorem IsWhole.tally_eq (h : n.IsWhole) (hc : p.standing.outside ≠ .callee)
    (hr : p.standing.outside ≠ .receiver) :
    n.tally f p = n.weight f p.depth p.frames + weigh f p.useOfValue := by
  obtain ⟨s, d, fs⟩ := p
  have huse : (Place.mk s d fs).use n.head = (Place.mk s d fs).useOfValue := by
    have hlist : n.head.is .arguments = false := h.list
    have hname : n.head.is .propertyIdentifier = false := h.property
    have hop : n.head.isOperand = true := h.operand
    cases s <;> simp_all [Place.useOfValue, Place.use, Place.useOutside,
      Standing.outside]
  rw [← huse]
  refine tally_eq_weight fun c _ => ?_
  cases s with
  | plain => rfl
  | callee => exact absurd rfl hc
  | receiver => exact absurd rfl hr
  | part => exact Place.below_part h.block
  | method => exact Place.below_method
  | list => exact Place.below_list h.list
  | argument => exact Place.below_argument
  | calleeWithin => exact absurd rfl hc
  | receiverWithin => exact absurd rfl hr

/-- A receiver weighs what it weighs by itself, and what it is used for
if it is a name. -/
theorem tally_receiver (hk : n.is .parenthesizedExpression = false) :
    n.tally f ⟨.receiver, d, fs⟩
      = n.weight f d fs + weigh f ((Place.mk .receiver d fs).use n.head) :=
  tally_eq_weight fun _ _ => Place.below_receiver hk

/-- What is called and is no member access weighs what it weighs by
itself, and the call of it. -/
theorem tally_callee (hk : n.is .parenthesizedExpression = false)
    (hm : n.is .memberExpression = false) : n.tally f ⟨.callee, d, fs⟩
      = n.weight f d fs + weigh f ((Place.mk .callee d fs).use n.head) :=
  tally_eq_weight fun _ _ => Place.below_callee hk hm

/-- An argument is one besides. -/
theorem tally_argument (hop : n.isOperand = true) :
    n.tally f ⟨.argument, d, fs⟩ = n.weight f d fs + f .argument := by
  rw [tally_eq_weight fun _ _ => Place.below_argument, use_argument, head_isOperand,
    hop]
  simp

/-- Under a weight that grows with the depth so does what uses weigh. -/
theorem tally_deeper (hf : ∀ t d e, d ≤ e → f (.called t d) ≤ f (.called t e))
    {s : Standing} {e : Nat} (h : d ≤ e) :
    n.tally f ⟨s, d, fs⟩ ≤ n.tally f ⟨s, e, fs⟩ := by
  have hframes : List.Forall₂ (Frame.Alike Eq) fs fs :=
    List.forall₂_same.2 fun a _ => ⟨rfl, rfl⟩
  refine weigh_le (uses_alike (J := Eq) (d := d) (e := e)
    ⟨rfl, ⟨0, rfl, rfl⟩, hframes⟩ (alike_refl (fun _ => rfl) n)) fun u v huv => ?_
  cases huv with
  | called t k => exact hf t _ _ (by omega)
  | receiver t hfs => rw [Frame.eq_of_alike hfs]
  | declares t b hij => rw [hij]
  | _ => exact Nat.le_refl _

/-- Under a weight that is blind to scopes trees that are the same but for
identities weigh the same. -/
theorem tally_of_copy {m : Node} (hr : ∀ t fs gs, f (.receiver fs t) = f (.receiver gs t))
    (hd : ∀ t b i j, f (.declares t i b) = f (.declares t j b)) (h : m.copy = n.copy) :
    m.tally f p = n.tally f p := by
  have hplace : p.Alike (fun _ _ => True) 0 0 p :=
    ⟨rfl, ⟨p.depth, by omega, by omega⟩, List.forall₂_same.2 fun _ _ => ⟨trivial, rfl⟩⟩
  have huses := uses_alike hplace (alike_of_copy h fun _ _ _ => trivial)
  have hsame : ∀ u v, Use.Alike (fun _ _ => True) 0 0 u v → f u = f v := by
    intro u v huv
    cases huv with
    | receiver t _ => exact hr t _ _
    | declares t b _ => exact hd t b _ _
    | _ => rfl
  exact Nat.le_antisymm (weigh_le huses.flip fun u v h => (hsame v u h).ge)
    (weigh_le huses fun u v h => (hsame u v h).le)

/-- Nodes that hold nothing in particular weigh what they hold. -/
theorem tally_branch (hs : s ∉ markedSymbols) (hi : s ∉ introducingSymbols)
    (cs : List Node) (p : Place) : (branch s cs).tally f p
      = (cs.map (·.weight f p.depth p.frames)).sum
        + weigh f (p.use (branch s cs).head) := by
  have hk : (branch s cs).is s = true := by simp [branch, is]
  rw [tally_of_kind hk hi]
  congr 2
  exact List.map_congr_left fun c _ =>
    by rw [Place.below_of_kind (h := (branch s cs).head) hk hs]; rfl

theorem weight_branch (hs : s ∉ markedSymbols) (hi : s ∉ introducingSymbols)
    (cs : List Node) :
    (branch s cs).weight f d fs = (cs.map (·.weight f d fs)).sum := by
  rw [weight, tally_branch hs hi, use_plain, weigh_nil, Nat.add_zero]

@[simp] theorem weight_token (t : String) : (token t).weight f d fs = 0 :=
  weight_children_nil rfl

@[simp] theorem weight_leaf (s : Symbol) (t : Text) : (leaf s t).weight f d fs = 0 :=
  weight_children_nil rfl

@[simp] theorem tally_token_within (t : String) (s : Standing) :
    (token t).tally f ⟨s.within, d, fs⟩ = 0 := by
  rw [tally_children_nil rfl, Place.use_within rfl, weigh_nil]

@[simp] theorem tally_token_argument (t : String) :
    (token t).tally f ⟨.argument, d, fs⟩ = 0 := by
  rw [tally_children_nil rfl]
  rfl

end Node

-- ================================================== what the rules build

namespace Build

open Node

variable {f : Use → Nat} {p : Place} {d : Nat} {fs : List Frame}

/-- In parentheses an expression is used for what they are. -/
theorem tally_parenthesized_within (e : Node) {s : Standing}
    (hs : s.outside ∈ [Standing.plain, .callee, .receiver]) :
    (parenthesized e).tally f ⟨s, d, fs⟩ = e.tally f ⟨s.within, d, fs⟩ := by
  have hk : (parenthesized e).is .parenthesizedExpression = true := rfl
  have hbelow : ∀ r, (Place.mk s d fs).below (parenthesized e).head r
      = ⟨s.within, d, fs⟩ := fun r =>
    Place.below_parentheses (h := (parenthesized e).head) hk
  rw [tally_of_kind hk (by decide),
    Place.use_parentheses (h := (parenthesized e).head) hs hk]
  simp only [hbelow]
  simp [parenthesized, branch]

theorem tally_parenthesized {e : Node} {s : Standing}
    (hs : s ∈ [.plain, .callee, .receiver]) (he : e.isOperand = true) :
    (parenthesized e).tally f ⟨s, d, fs⟩ = e.tally f ⟨s, d, fs⟩ := by
  rw [tally_parenthesized_within e (Cursor.outside_mem hs), tally,
    Cursor.uses_within hs he, tally]

@[simp] theorem weight_parenthesized (e : Node) :
    (parenthesized e).weight f d fs = e.weight f d fs :=
  tally_parenthesized_within e (by decide)

theorem tally_operand {e : Node} {t : Standing} (ht : t ∈ [.plain, .callee, .receiver])
    (he : e.isOperand = true) (s : Symbol) (r : Role) :
    (operand e s r).tally f ⟨t, d, fs⟩ = e.tally f ⟨t, d, fs⟩ := by
  unfold operand
  split
  · exact tally_parenthesized ht he
  · rfl

@[simp] theorem weight_operand (e : Node) (s : Symbol) (r : Role) :
    (operand e s r).weight f d fs = e.weight f d fs := by
  unfold operand
  split
  · exact weight_parenthesized e
  · rfl

@[simp] theorem tally_inRole (n : Node) (r : Role) :
    (inRole n r).tally f p = n.tally f p := tally_placed ..

@[simp] theorem weight_inRole (n : Node) (r : Role) :
    (inRole n r).weight f d fs = n.weight f d fs := tally_placed ..

@[simp] theorem weight_spaced (n : Node) (r : Role) :
    (spaced n r).weight f d fs = n.weight f d fs := tally_placed ..

@[simp] theorem weight_spacedToken (t : String) :
    (spacedToken t).weight f d fs = 0 :=
  (weight_placed ..).trans (weight_token t)

theorem sum_tally_commaSeparated (hp : (token ",").tally f p = 0) (es : List Node) :
    ((commaSeparated es).map (·.tally f p)).sum = (es.map (·.tally f p)).sum := by
  cases es with
  | nil => rfl
  | cons e es =>
      simp only [commaSeparated, List.map_cons, List.sum_cons, tally_placed]
      congr 1
      induction es with
      | nil => rfl
      | cons e es ih => simp [ih, hp]

@[simp] theorem weight_identifier (t : Text) : (identifier t).weight f d fs = 0 :=
  weight_leaf _ _

@[simp] theorem weight_propertyIdentifier (t : Text) :
    (propertyIdentifier t).weight f d fs = 0 := weight_leaf _ _

@[simp] theorem weight_number (t : Text) : (number t).weight f d fs = 0 :=
  weight_leaf _ _

@[simp] theorem weight_boolean (b : Bool) : (boolean b).weight f d fs = 0 := by
  cases b <;> exact weight_leaf _ _

@[simp] theorem weight_string (t : Text) : (string t).weight f d fs = 0 := by
  unfold string quoted
  split <;> rw [weight_branch (by decide) (by decide)]
  all_goals
    split <;> simp

/-- A member access weighs what its object weighs. -/
@[simp] theorem weight_memberNode (o m : Node) (b : Bool) :
    (memberNode o m b).weight f d fs = o.weight f d fs + m.weight f d fs := by
  have hbelow : ∀ r, (Place.mk .plain d fs).below (memberNode o m b).head r
      = ⟨.plain, d, fs⟩ := fun r => rfl
  rw [weight, tally_of_kind (s := .memberExpression) rfl (by decide), use_plain]
  simp only [hbelow]
  have ho : (operand o .memberExpression .object).tally f ⟨.plain, d, fs⟩
      = o.weight f d fs := weight_operand ..
  have htoken : ∀ t, (token t).tally f ⟨.plain, d, fs⟩ = 0 := weight_token
  cases b <;> simp [memberNode, branch, weight, ho, htoken]

@[simp] theorem weight_member (o : Node) (t : Text) :
    (member o t).weight f d fs = o.weight f d fs := by
  simp [member]

/-- A member access that is called weighs what its object weighs as a
receiver, and the method. -/
theorem tally_member_callee (o : Node) (t : Text) :
    (member o t).tally f ⟨.callee, d, fs⟩
      = (operand o .memberExpression .object).tally f ⟨.receiver, d + 1, fs⟩
        + f (.method t) := by
  have hkind : (member o t).head.is .memberExpression = true := rfl
  have hobject : (inRole (operand o .memberExpression .object) .object).role
      = some .object := rfl
  have hproperty : (inRole (propertyIdentifier t) .property).role
      = some .property := rfl
  have hdot : (token ".").role = none := rfl
  have hname : (propertyIdentifier t).tally f ⟨.method, d, fs⟩
      = f (.method t) := by
    rw [tally_children_nil rfl, use_method]
    simp [propertyIdentifier, leaf, head, Head.is]
  have huse : (Place.mk .callee d fs).use (member o t).head = [] := rfl
  rw [tally_of_kind (s := .memberExpression) rfl (by decide), huse]
  simp only [Place.below_called hkind]
  simp only [member, memberNode, branch, List.map_cons, List.map_nil,
    List.sum_cons, List.sum_nil, hobject, hproperty, tally_inRole, hname]
  have hplain : (token ".").tally f ⟨.plain, d, fs⟩ = 0 := weight_token _
  simp [hdot, hplain]

/-- Arguments in parentheses weigh what they weigh in their places. -/
theorem tally_arguments (args : List Node) :
    (arguments args).tally f ⟨.list, d, fs⟩
      = (args.map (·.tally f ⟨.argument, d + 1, fs⟩)).sum := by
  have hbelow : ∀ r, (Place.mk .list d fs).below (arguments args).head r
      = ⟨.argument, d + 1, fs⟩ := fun r => rfl
  have huse : (Place.mk .list d fs).use (arguments args).head = [] := rfl
  rw [tally_of_kind (s := .arguments) rfl (by decide)]
  simp only [hbelow, huse]
  simp [arguments, branch, sum_tally_commaSeparated (tally_token_argument ",")]

/-- A call weighs what its function and its arguments weigh in their
places, and what it is used for. -/
theorem tally_call {callee : Node} (hc : callee.isOperand = true) (args : List Node)
    (p : Place) : (call callee args).tally f p
      = callee.tally f ⟨.callee, p.depth, p.frames⟩
        + (args.map (·.tally f ⟨.argument, p.depth + 1, p.frames⟩)).sum
        + weigh f p.useOfCall := by
  have hkind : (call callee args).head.is .callExpression = true := rfl
  have hcallee : (inRole (operand callee .callExpression .function) .function).role
      = some .function := rfl
  have hargs : (inRole (arguments args) .arguments).role = some .arguments := rfl
  have huse : p.use (call callee args).head = p.useOfCall := by
    obtain ⟨s, d, fs⟩ := p
    cases s <;> rfl
  rw [tally_of_kind (s := .callExpression) rfl (by decide)]
  simp only [Place.below_call hkind]
  rw [huse]
  congr 1
  simp only [call, branch, List.map_cons, List.map_nil, List.sum_cons, List.sum_nil,
    Nat.add_zero, hcallee, hargs, tally_inRole, tally_arguments,
    tally_operand (t := .callee) (by decide) hc]

/-- A method call weighs its receiver, the method and its arguments. -/
theorem tally_methodCall {o : Node} (ho : o.isOperand = true) (t : Text)
    (args : List Node) (p : Place) : (methodCall o t args).tally f p
      = o.tally f ⟨.receiver, p.depth + 1, p.frames⟩ + f (.method t)
        + (args.map (·.tally f ⟨.argument, p.depth + 1, p.frames⟩)).sum
        + weigh f p.useOfCall := by
  rw [methodCall, tally_call rfl, tally_member_callee, tally_operand (by decide) ho]

/-- A name that is called. -/
theorem tally_identifier_callee (t : Text) :
    (identifier t).tally f ⟨.callee, d, fs⟩ = f (.called t d) := by
  rw [tally_children_nil rfl, use_callee]
  simp [identifier, leaf, head, Head.is]

/-- The receiver of a method call that is a name. -/
theorem tally_identifier_receiver (t : Text) :
    (identifier t).tally f ⟨.receiver, d, fs⟩ = f (.receiver fs t) := by
  rw [tally_children_nil rfl, use_receiver]
  simp [identifier, leaf, head, Head.is]

end Build

-- ====================================================== what they replace

/-- Two members of a list weigh no more than the list. -/
theorem sum_pair_le {α : Type} {g : α → Nat} {a b : α} {l : List α} (ha : a ∈ l)
    (hb : b ∈ l) (hne : a ≠ b) : g a + g b ≤ (l.map g).sum := by
  have hsub : [a, b].Subperm l :=
    List.subperm_of_subset (by simpa using hne) (by simp [ha, hb])
  obtain ⟨l', hp, hs⟩ := hsub
  have hperm : (l'.map g).sum = g a + g b := by
    rw [(hp.map g).sum_nat]
    simp
  rw [← hperm]
  exact (hs.map g).sum_le_sum fun _ _ => Nat.zero_le _

theorem Place.use_of_call {p : Place} {h : Head} (hk : h.is .callExpression = true)
    (hop : h.isOperand = true) : p.use h = p.useOfCall := by
  have hne : ∀ t ≠ Symbol.callExpression, h.is t = false :=
    fun t ht => Head.is_false hk ht.symm
  obtain ⟨s, d, fs⟩ := p
  cases s <;> simp [use, useOutside, useOfCall, Standing.outside, hk, hop,
    hne .arguments (by decide), hne .propertyIdentifier (by decide),
    hne .identifier (by decide)]

namespace Cursor

open Node

variable {f : Use → Nat} {p : Place} {c m o g : Cursor} {name : Text} {d : Nat}
  {fs : List Frame}

/-- What has parts is no bare token. -/
theorem isOperand_of_child? {r : Role} (h : c.node.Shaped)
    (hd : c.child? r = some o) : c.node.isOperand = true :=
  isOperand_of_mem h.formed (node_mem_of_mem_children (mem_children_of_child? hd))

theorem tally_unparen {s : Standing} (hs : s ∈ [.plain, .callee, .receiver])
    (h : c.node.Shaped) :
    c.unparen.node.tally f ⟨s, d, fs⟩ = c.node.tally f ⟨s, d, fs⟩ := by
  rw [tally, tally, uses_unparen hs h]

theorem tally_strip {n : Node} {s : Standing} (hs : s ∈ [.plain, .callee, .receiver])
    (h : n.Shaped) : n.strip.tally f ⟨s, d, fs⟩ = n.tally f ⟨s, d, fs⟩ := by
  rw [← show (top n).unparen.node = n.strip from node_unparen (top n)]
  exact tally_unparen (c := top n) hs h

/-- A receiver weighs what it weighs elsewhere, unless it is a name that
weighs something as a receiver. -/
theorem tally_receiver_of {n : Node} (h : n.Shaped)
    (hk : n.strip.is .parenthesizedExpression = false)
    (hname : n.strip.is .identifier = true → f (.receiver fs n.strip.head.word) = 0) :
    n.tally f ⟨.receiver, d, fs⟩ = n.weight f d fs := by
  rw [← tally_strip (by decide) h, tally_receiver hk, use_receiver, head_is]
  have hplain : n.strip.weight f d fs = n.weight f d fs := tally_strip (by decide) h
  split
  · next hident => rw [hplain, weigh_cons, hname hident, weigh_nil, Nat.add_zero]
  · rw [hplain, weigh_nil, Nat.add_zero]

/-- A call weighs what its function and its arguments weigh in their
places, and what it is used for. -/
theorem tally_call (h : c.node.Shaped) (hk : c.is .callExpression = true)
    (hg : c.child? .function = some g) (p : Place) : c.node.tally f p
      = g.node.tally f ⟨.callee, p.depth, p.frames⟩
        + ((c.arguments.map (·.node.tally f ⟨.argument, p.depth + 1, p.frames⟩)).sum
          + weigh f (c.templateUses p.depth p.frames))
        + weigh f p.useOfCall := by
  rw [tally, uses_call h hk, hg, Place.use_of_call (h := c.node.head) hk (isOperand_of_child? h hg)]
  simp only [weigh_append, weigh_flatMap, Option.toList_some, List.flatMap_singleton]
  rfl

/-- The name of a member access that is called weighs what the method
does, in a child of its own. -/
theorem exists_property (h : m.node.Shaped) (hname : m.node.propertyName? = some name) :
    ∃ q ∈ m.node.children, q.role = some .property
      ∧ ∀ d fs, q.tally f ⟨.method, d, fs⟩ = f (.method name) := by
  have hk := is_of_propertyName? hname
  obtain ⟨q, hqmem, hqrole, hqk, hqtext⟩ : ∃ q ∈ m.node.children,
      q.role = some .property ∧ q.is .propertyIdentifier = true
        ∧ q.text = some name := by
    unfold Node.propertyName? at hname
    rw [hk] at hname
    simp only [Bool.not_true, Bool.false_eq_true, if_false] at hname
    split at hname
    · next q hq =>
        split at hname
        · next hqk =>
            exact ⟨q, List.mem_of_find?_eq_some hq,
              by simpa using List.find?_some hq, hqk, hname⟩
        · cases hname
    · cases hname
  have hqnil : q.children = [] :=
    (h.of_mem_children hqmem).formed.worded (by rw [hqtext]; rfl)
  refine ⟨q, hqmem, hqrole, fun d fs => ?_⟩
  have huse : (Place.mk .method d fs).use q.head = [.method name] := by
    have hword : q.head.word = name := by simp [head, hqtext]
    rw [use_method]
    simp [hqk, hword]
  rw [tally_children_nil hqnil, huse, weigh_cons, weigh_nil, Nat.add_zero]

/-- A member access that is called weighs at least the method. -/
theorem method_le_tally_callee (h : m.node.Shaped)
    (hname : m.node.propertyName? = some name) :
    f (.method name) ≤ m.node.tally f ⟨.callee, d, fs⟩ := by
  have hk := is_of_propertyName? hname
  obtain ⟨q, hqmem, hqrole, hq⟩ := exists_property (f := f) h hname
  rw [tally_of_kind hk (by decide)]
  refine Nat.le_trans (Nat.le_of_eq ?_) (Nat.le_trans (List.single_le_sum
    (fun _ _ => Nat.zero_le _) _ (List.mem_map_of_mem hqmem)) (Nat.le_add_right _ _))
  rw [hqrole, Place.below_called (h := m.node.head) hk]
  exact (hq d fs).symm

/-- A call of a method weighs at least its receiver, the method and its
arguments. -/
theorem tally_member_callee_le (h : m.node.Shaped)
    (hname : m.node.propertyName? = some name) (ho : m.child? .object = some o) :
    o.node.tally f ⟨.receiver, d + 1, fs⟩ + f (.method name)
      ≤ m.node.tally f ⟨.callee, d, fs⟩ := by
  have hk := is_of_propertyName? hname
  have hbelow : ∀ r, (Place.mk .callee d fs).below m.node.head r = _ :=
    fun r => Place.below_called (h := m.node.head) hk
  have horole : o.node.role = some .object := by simpa using List.find?_some ho
  have homem : o.node ∈ m.node.children :=
    node_mem_of_mem_children (mem_children_of_child? ho)
  obtain ⟨q, hqmem, hqrole, hq⟩ := exists_property (f := f) h hname
  have hne : o.node ≠ q := by
    intro heq
    rw [heq, hqrole] at horole
    cases horole
  rw [tally_of_kind hk (by decide)]
  refine Nat.le_trans ?_ (Nat.le_add_right _ _)
  refine Nat.le_trans (Nat.le_of_eq ?_) (sum_pair_le (g := fun a =>
    a.tally f ((Place.mk .callee d fs).below m.node.head a.role)) homem hqmem hne)
  simp only [hbelow, horole, hqrole, hq]

/-- Apart from the method it weighs what its object does. -/
theorem tally_member_callee_eq (hf : ∀ t, f (.method t) = 0) (h : m.node.Shaped)
    (hk : m.is .memberExpression = true) (ho : m.child? .object = some o) :
    m.node.tally f ⟨.callee, d, fs⟩ = o.node.tally f ⟨.receiver, d + 1, fs⟩ := by
  have hzero : ∀ u, (f u != 0) = false → f u = 0 := fun u hu => by simpa using hu
  rw [tally, tally, ← weigh_filter hzero,
    filter_uses_member (fun t => by simp [hf]) h hk ho, weigh_filter hzero]

/-- The function of a method call is the member access in
parentheses. -/
theorem exists_function (hm : c.calledMember? = some (m, name)) :
    ∃ g, c.child? .function = some g ∧ m = g.unparen := by
  obtain ⟨g, hg, rfl⟩ := inner?_eq_some.1 (calledMember?_eq_some hm).1
  exact ⟨g, hg, rfl⟩

/-- What a method call weighs besides its receiver and its method. -/
def rest (f : Use → Nat) (p : Place) (c : Cursor) : Nat :=
  (c.arguments.map (·.node.tally f ⟨.argument, p.depth + 1, p.frames⟩)).sum
    + weigh f (c.templateUses p.depth p.frames) + weigh f p.useOfCall

/-- A method call weighs at least the method and its arguments. -/
theorem tally_calledMember_le (h : c.node.Shaped) (hk : c.is .callExpression = true)
    (hm : c.calledMember? = some (m, name)) (p : Place) :
    f (.method name) + c.rest f p ≤ c.node.tally f p := by
  obtain ⟨g, hg, rfl⟩ := exists_function hm
  have hgs := shaped_of_child? h hg
  have hle : f (.method name) ≤ g.unparen.node.tally f ⟨.callee, p.depth, p.frames⟩ :=
    method_le_tally_callee (shaped_of_mem_walk hgs (unparen_mem_walk g))
      (calledMember?_eq_some hm).2
  rw [tally_unparen (by decide) hgs] at hle
  rw [tally_call h hk hg, rest]
  omega

theorem tally_methodCall_le (h : c.node.Shaped) (hk : c.is .callExpression = true)
    (hm : c.calledMember? = some (m, name)) (ho : m.child? .object = some o)
    (p : Place) : o.unparen.node.tally f ⟨.receiver, p.depth + 1, p.frames⟩
      + f (.method name) + c.rest f p ≤ c.node.tally f p := by
  obtain ⟨g, hg, rfl⟩ := exists_function hm
  have hgs := shaped_of_child? h hg
  have hms := shaped_of_mem_walk hgs (unparen_mem_walk g)
  have hle : o.node.tally f ⟨.receiver, p.depth + 1, p.frames⟩ + f (.method name)
      ≤ g.unparen.node.tally f ⟨.callee, p.depth, p.frames⟩ :=
    tally_member_callee_le hms (calledMember?_eq_some hm).2 ho
  rw [tally_unparen (by decide) hgs] at hle
  rw [tally_call h hk hg, tally_unparen (by decide) (shaped_of_child? hms ho), rest]
  omega

theorem tally_methodCall_eq (hf : ∀ t, f (.method t) = 0) (h : c.node.Shaped)
    (hk : c.is .callExpression = true) (hm : c.calledMember? = some (m, name))
    (ho : m.child? .object = some o) (p : Place) : c.node.tally f p
      = o.unparen.node.tally f ⟨.receiver, p.depth + 1, p.frames⟩ + c.rest f p := by
  obtain ⟨g, hg, rfl⟩ := exists_function hm
  have hgs := shaped_of_child? h hg
  have hms := shaped_of_mem_walk hgs (unparen_mem_walk g)
  have heq : g.unparen.node.tally f ⟨.callee, p.depth, p.frames⟩
      = o.node.tally f ⟨.receiver, p.depth + 1, p.frames⟩ :=
    tally_member_callee_eq hf hms (is_of_propertyName? (calledMember?_eq_some hm).2) ho
  rw [tally_unparen (by decide) hgs] at heq
  rw [tally_call h hk hg, heq, tally_unparen (by decide) (shaped_of_child? hms ho), rest]
  omega

/-- A call with arguments has no template. -/
theorem templateUses_of_arguments {a : Cursor} {as : List Cursor}
    (h : c.arguments = a :: as) (d : Nat) (fs : List Frame) :
    c.templateUses d fs = [] := by
  unfold arguments at h
  unfold templateUses taggedTemplate?
  cases ha : c.child? .arguments with
  | none => rfl
  | some b =>
      rw [ha] at h
      cases hk : b.is .arguments with
      | true => simp [hk]
      | false => simp [hk] at h

/-- A call of the factory weighs the call of the name and its
argument. -/
theorem tally_factoryCall {a : Cursor} (h : c.node.Shaped)
    (hk : c.is .callExpression = true) (hg : c.child? .function = some g)
    (hident : g.is .identifier = true) (ha : c.arguments = [a]) (p : Place) :
    c.node.tally f p = f (.called g.code p.depth)
      + a.node.tally f ⟨.argument, p.depth + 1, p.frames⟩ + weigh f p.useOfCall := by
  have hgs := shaped_of_child? h hg
  have hgnil : g.node.children = [] := hgs.formed.plain (by
    have hany : g.node.isAny atomSymbols = true :=
      isAny_iff.2 ⟨.identifier, by decide, is_iff.1 hident⟩
    rw [isAtom, hany, Bool.or_true])
  have hcode : g.node.head.word = g.code := (code_of_children_nil hgnil).symm
  have hgtally : g.node.tally f ⟨.callee, p.depth, p.frames⟩
      = f (.called g.code p.depth) := by
    have hk' : g.node.is .identifier = true := hident
    have hne : ∀ t ≠ Symbol.identifier, g.node.is t = false :=
      fun t ht => is_false_of_kind (is_iff.1 hk') ht.symm
    rw [tally_children_nil hgnil, use_callee]
    simp [hk', hne .callExpression (by decide),
      hne .binaryExpression (by decide), hcode]
  rw [tally_call h hk hg, hgtally, ha, templateUses_of_arguments ha]
  simp

end Cursor

-- ============================================================ replacing

/-- What is put in the place of a node weighs what it weighs without the
parentheses that it may need there. -/
theorem Workspace.tally_fitted {f : Use → Nat} {p : Place} {parent old new : Node}
    (h : new.IsWhole) : (fitted parent old new).tally f p = new.tally f p := by
  unfold fitted
  rw [Node.tally_placed]
  split
  · obtain ⟨s, d, fs⟩ := p
    have hwhole : (Build.parenthesized new).IsWhole :=
      Node.isWhole_of_kind (s := .parenthesizedExpression) rfl rfl (by decide)
    cases s with
    | callee => exact Build.tally_parenthesized (by decide) h.operand
    | receiver => exact Build.tally_parenthesized (by decide) h.operand
    | calleeWithin => exact Build.tally_parenthesized_within new (by decide)
    | receiverWithin => exact Build.tally_parenthesized_within new (by decide)
    | _ =>
        rw [hwhole.tally_eq (by simp [Standing.outside]) (by simp [Standing.outside]),
          h.tally_eq (by simp [Standing.outside]) (by simp [Standing.outside]),
          Build.weight_parenthesized]
  · rfl

end Codemod
