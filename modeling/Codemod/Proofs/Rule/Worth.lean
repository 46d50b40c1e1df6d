/-
What a program is worth.

Every method that some rule takes out of the program for good is worth
something (`price`), and so is every call of a value. A tree is worth what
it uses is worth, and that is the same wherever it is neither called nor
the name of a method (`Node.tally_price`); so what a rule builds is worth
what its operands are worth and what is new in it.
-/
import Codemod.Proofs.Rule.Measure

namespace Codemod

/-- What uses are worth. What `siblings` is rewritten to calls `from`, so it
is worth more than the others; what is called may be a property afterwards,
with the name of such a method. -/
def price : Use → Nat
  | .method t =>
    if t == Text.ofString "siblings" then 2 else if isSpent t then 1 else 0
  | .recalled => 3
  | _ => 0

theorem price_method_le (t : Text) : price (.method t) ≤ 2 := by
  simp only [price]
  split
  · exact Nat.le_refl 2
  · split <;> decide

/-- What no rule takes out is worth nothing. -/
theorem price_of_not_isSpent {t : Text} (h : isSpent t = false) :
    price (.method t) = 0 := by
  have hne : (t == Text.ofString "siblings") = false := by
    rw [beq_eq_false_iff_ne]
    rintro rfl
    exact absurd h (by decide)
  simp [price, hne, h]

theorem price_of_isSpent {t : Text} (h : isSpent t = true) : 1 ≤ price (.method t) := by
  simp only [price, h]
  split <;> decide

theorem weigh_eq_zero {f : Use → Nat} {us : List Use} (h : ∀ u ∈ us, f u = 0) :
    weigh f us = 0 := by
  induction us with
  | nil => rfl
  | cons u us ih =>
      rw [List.forall_mem_cons] at h
      rw [weigh_cons, h.1, ih h.2]

namespace Place

variable {p q : Place} {h : Head} {r : Option Role} {d : Nat} {fs : List Frame}

theorem weigh_price_declared (p : Place) (n : Node) : weigh price (p.declared n) = 0 := by
  refine weigh_eq_zero fun u hu => ?_
  obtain ⟨x, -, hu⟩ := List.mem_flatMap.1 hu
  obtain ⟨s, -, rfl⟩ := List.mem_map.1 hu
  rfl

/-- What a node is worth itself depends on what it is there. -/
theorem weigh_price_use (hs : p.standing = q.standing) :
    weigh price (p.use h) = weigh price (q.use h) := by
  unfold use useOutside
  rw [hs]
  split
  · rfl
  · split
    · rfl
    · split
      · rfl
      · split <;> rfl
    · split <;> rfl
    · rfl
    · rfl
    · rfl

theorem weigh_price_use_of (hc : p.standing.outside ≠ .callee)
    (hm : p.standing.outside ≠ .method) : weigh price (p.use h) = 0 := by
  unfold use useOutside
  split
  · rfl
  · split
    · next hs => exact absurd hs hm
    · next hs => exact absurd hs hc
    · split <;> rfl
    · split <;> rfl
    · split <;> rfl
    · rfl

/-- Only calls and comparisons that are called and methods are worth
something themselves. -/
theorem weigh_price_use_of_kind {s : Symbol} (hk : h.is s = true)
    (hs : s ∉ [.callExpression, .binaryExpression, .propertyIdentifier]) :
    weigh price (p.use h) = 0 := by
  have hne : ∀ t ∈ [Symbol.callExpression, .binaryExpression, .propertyIdentifier],
      h.is t = false := fun t ht => Head.is_false hk fun heq => hs (heq ▸ ht)
  unfold use useOutside
  rw [hne _ (by decide : Symbol.callExpression ∈ _),
    hne _ (by decide : Symbol.binaryExpression ∈ _),
    hne _ (by decide : Symbol.propertyIdentifier ∈ _)]
  split
  · rfl
  · split
    · rfl
    · simp only [Bool.or_self, Bool.false_eq_true, if_false]
      split <;> rfl
    · split <;> rfl
    · split <;> rfl
    · split <;> rfl
    · rfl

theorem standing_below (hs : p.standing = q.standing) :
    (p.below h r).standing = (q.below h r).standing := by
  unfold below
  rw [hs]
  split
  · split <;> rfl
  · split
    · split <;> rfl
    · split
      · rfl
      · split <;> rfl

/-- Below what is not called nothing is called that is not called below
it elsewhere. -/
theorem standing_below_of (d : Nat) (fs : List Frame)
    (hc : p.standing.outside ≠ .callee) :
    (p.below h r).standing = ((Place.mk .plain d fs).below h r).standing
      ∨ (((p.below h r).standing = .receiverWithin ∨ (p.below h r).standing = .argument)
        ∧ ((Place.mk .plain d fs).below h r).standing = .plain) := by
  unfold below
  split
  · left
    split <;> rfl
  · split
    · left
      split
      · next hs => exact absurd hs hc
      · next hs => exact absurd hs hc
      · rfl
    · split
      · cases hp : p.standing with
        | callee => rw [hp] at hc; exact absurd rfl hc
        | calleeWithin => rw [hp] at hc; exact absurd rfl hc
        | receiver => exact Or.inr ⟨Or.inl rfl, rfl⟩
        | receiverWithin => exact Or.inr ⟨Or.inl rfl, rfl⟩
        | _ => exact Or.inl rfl
      · have hplain : (h.is .arguments && Standing.plain == .list) = false := by
          rw [Bool.and_eq_false_iff]
          exact Or.inr rfl
        rw [hplain]
        split
        · next hargs =>
            have hfun : h.isFunction = false := Head.isAny_false
              (Bool.and_eq_true_iff.1 hargs).1 (by decide)
            rw [hfun]
            exact Or.inr ⟨Or.inr rfl, rfl⟩
        · exact Or.inl rfl

theorem standing_below_plain (d : Nat) (fs : List Frame)
    (hk : h.is .callExpression = false) :
    ((Place.mk .plain d fs).below h r).standing = .plain
      ∨ ((Place.mk .plain d fs).below h r).standing = .part := by
  unfold below
  rw [hk]
  have hplain : (h.is .arguments && Standing.plain == .list) = false := by
    rw [Bool.and_eq_false_iff]
    exact Or.inr rfl
  rw [hplain, if_neg Bool.false_ne_true]
  split
  · exact Or.inl rfl
  · split
    · exact Or.inl rfl
    · rw [if_neg Bool.false_ne_true]
      cases h.isFunction with
      | true => exact Or.inr rfl
      | false => exact Or.inl rfl

end Place

namespace Node

variable {p q : Place} {n : Node} {d : Nat} {fs : List Frame} {s : Symbol}

/-- What a tree is worth depends on what it is where it stands. -/
theorem tally_price_eq (hs : p.standing = q.standing) (n : Node) :
    n.tally price p = n.tally price q := by
  induction n using Node.ind generalizing p q with
  | h n ih =>
      rw [tally_eq, tally_eq, Place.weigh_price_declared, Place.weigh_price_declared,
        Place.weigh_price_use hs,
        List.map_congr_left fun c hc => ih c hc (Place.standing_below hs)]

/-- What a tree is worth by itself. -/
def worth (n : Node) : Nat := n.weight price 0 []

@[simp] theorem weight_price (n : Node) (d : Nat) (fs : List Frame) :
    n.weight price d fs = n.worth :=
  tally_price_eq (p := ⟨.plain, d, fs⟩) (q := ⟨.plain, 0, []⟩) rfl n

/-- A tree is worth the same wherever it is neither called nor a method. -/
theorem tally_price (hc : p.standing.outside ≠ .callee)
    (hm : p.standing.outside ≠ .method) (n : Node) : n.tally price p = n.worth := by
  induction n using Node.ind generalizing p with
  | h n ih =>
      rw [worth, weight, tally_eq, tally_eq, Place.weigh_price_declared,
        Place.weigh_price_declared, Place.weigh_price_use_of hc hm, use_plain, weigh_nil]
      congr 2
      refine List.map_congr_left fun c hmem => ?_
      rcases Place.standing_below_of (h := n.head) (r := c.role) 0 [] hc
        with hsame | ⟨hin, hplain⟩
      · exact tally_price_eq hsame c
      · have hworth : c.tally price (p.below n.head c.role) = c.worth := by
          refine ih c hmem ?_ ?_ <;> rcases hin with hin | hin <;> rw [hin] <;> decide
        rw [hworth]
        exact tally_price_eq hplain.symm c


@[simp] theorem tally_price_argument (d : Nat) (fs : List Frame) (n : Node) :
    n.tally price ⟨.argument, d, fs⟩ = n.worth :=
  tally_price (p := ⟨.argument, d, fs⟩) (show Standing.argument ≠ .callee by decide)
    (show Standing.argument ≠ .method by decide) n

@[simp] theorem tally_price_receiver (d : Nat) (fs : List Frame) (n : Node) :
    n.tally price ⟨.receiver, d, fs⟩ = n.worth :=
  tally_price (p := ⟨.receiver, d, fs⟩) (show Standing.receiver ≠ .callee by decide)
    (show Standing.receiver ≠ .method by decide) n

@[simp] theorem worth_placed (n : Node) (r : Option Role) (l : Text) :
    (n.placed r l).worth = n.worth := weight_placed ..

theorem worth_children_nil (h : n.children = []) : n.worth = 0 :=
  weight_children_nil h

/-- Whatever is not called is worth what it holds. -/
theorem worth_eq (hk : n.is .callExpression = false) :
    n.worth = (n.children.map worth).sum := by
  rw [worth, weight, tally_eq, Place.weigh_price_declared, use_plain, weigh_nil]
  refine congrArg List.sum (List.map_congr_left fun c _ => tally_price ?_ ?_ c) <;>
    rcases Place.standing_below_plain (r := c.role) (h := n.head) 0 [] hk
      with h | h <;> rw [h] <;> decide

theorem worth_branch (hs : s ≠ .callExpression) (cs : List Node) :
    (branch s cs).worth = (cs.map worth).sum :=
  worth_eq (by simpa [branch, is] using hs)

/-- Identities are worth nothing. -/
theorem tally_price_of_copy {m : Node} (h : m.copy = n.copy) (p : Place) :
    m.tally price p = n.tally price p :=
  tally_of_copy (fun _ _ _ => rfl) (fun _ _ _ _ => rfl) h

theorem worth_strip (h : n.Shaped) : n.strip.worth = n.worth :=
  Cursor.tally_strip (by decide) h

end Node

theorem Cursor.worth_unparen {c : Cursor} (h : c.node.Shaped) :
    c.unparen.node.worth = c.node.worth := by
  rw [Cursor.node_unparen, Node.worth_strip h]

namespace Place

/-- What the call of a value is worth where it stands. -/
def recallPrice (p : Place) : Nat := weigh price p.useOfCall

end Place

namespace Node

variable {n : Node} {s : Symbol}

/-- Where it stands an expression is worth no more than by itself and a
call of it. -/
def IsModest (n : Node) : Prop := ∀ p : Place, n.tally price p ≤ n.worth + p.recallPrice

theorem IsWhole.isModest (h : n.IsWhole)
    (hcallee : ∀ d fs, n.tally price ⟨.callee, d, fs⟩ ≤ n.worth + 3) : n.IsModest := by
  rintro ⟨s, d, fs⟩
  cases s with
  | callee => exact hcallee d fs
  | calleeWithin =>
      rw [tally, ← show Standing.within .callee = .calleeWithin from rfl,
        Cursor.uses_within (by decide) h.operand]
      exact hcallee d fs
  | method =>
      rw [h.tally_eq (by simp [Standing.outside]) (by simp [Standing.outside]),
        weight_price]
      exact Nat.add_le_add_left (Nat.zero_le _) _
  | _ =>
      rw [tally_price (by simp [Standing.outside]) (by simp [Standing.outside])]
      exact Nat.le_add_right _ _

/-- What is called and is no member access is called by itself. -/
theorem isModest_of_kind (hn : n.named = true) (hk : n.is s = true)
    (hs : s ∉ .parenthesizedExpression :: .memberExpression :: partialSymbols) :
    n.IsModest := by
  have hne : ∀ t ∈ Symbol.parenthesizedExpression :: .memberExpression :: partialSymbols,
      n.is t = false := fun t ht =>
    is_false_of_kind (is_iff.1 hk) fun heq => hs (heq ▸ ht)
  refine IsWhole.isModest (isWhole_of_kind hn hk fun h => hs ?_) fun d fs => ?_
  · exact List.mem_cons_of_mem _ (List.mem_cons_of_mem _ h)
  · rw [tally_callee (hne _ (by decide)) (hne _ (by decide)), weight_price, use_callee]
    refine Nat.add_le_add_left ?_ _
    split
    · decide
    · split <;> simp [price]

end Node

namespace Build

open Node

variable {e o : Node} {t : Text} {args : List Node}

@[simp] theorem worth_token (t : String) : (token t).worth = 0 := weight_token t

@[simp] theorem worth_identifier (t : Text) : (identifier t).worth = 0 :=
  weight_identifier t

@[simp] theorem worth_propertyIdentifier (t : Text) :
    (propertyIdentifier t).worth = 0 := weight_propertyIdentifier t

@[simp] theorem worth_string (t : Text) : (string t).worth = 0 := weight_string t

@[simp] theorem worth_number (t : Text) : (number t).worth = 0 := weight_number t

@[simp] theorem worth_boolean (b : Bool) : (boolean b).worth = 0 := weight_boolean b

@[simp] theorem worth_inRole (n : Node) (r : Role) : (inRole n r).worth = n.worth :=
  worth_placed ..

@[simp] theorem worth_spaced (n : Node) (r : Role) : (spaced n r).worth = n.worth :=
  worth_placed ..

@[simp] theorem worth_spacedToken (t : String) : (spacedToken t).worth = 0 :=
  weight_spacedToken t

@[simp] theorem worth_parenthesized (e : Node) : (parenthesized e).worth = e.worth :=
  weight_parenthesized e

@[simp] theorem worth_operand (e : Node) (s : Symbol) (r : Role) :
    (operand e s r).worth = e.worth := weight_operand ..

@[simp] theorem worth_memberNode (o m : Node) (b : Bool) :
    (memberNode o m b).worth = o.worth + m.worth := weight_memberNode ..

@[simp] theorem worth_member (o : Node) (t : Text) : (member o t).worth = o.worth :=
  weight_member o t

@[simp] theorem worth_path (o : Node) (ts : List Text) : (path o ts).worth = o.worth := by
  induction ts generalizing o with
  | nil => rfl
  | cons t ts ih => exact (ih (member o t)).trans (worth_member o t)

@[simp] theorem sum_worth_commaSeparated (es : List Node) :
    ((commaSeparated es).map worth).sum = (es.map worth).sum :=
  sum_tally_commaSeparated rfl es

@[simp] theorem worth_arguments (args : List Node) :
    (arguments args).worth = (args.map worth).sum := by
  simp [arguments, worth_branch]

@[simp] theorem worth_formalParameters (ps : List Node) :
    (formalParameters ps).worth = (ps.map worth).sum := by
  simp [formalParameters, worth_branch]

@[simp] theorem worth_array (es : List Node) :
    (array es).worth = (es.map worth).sum := by
  simp [array, worth_branch]

@[simp] theorem worth_spread (e : Node) : (spread e).worth = e.worth := by
  simp [spread, worth_branch]

@[simp] theorem worth_arrow (ps : List Node) (body : Node) :
    (arrow ps body).worth = (ps.map worth).sum + body.worth := by
  unfold arrow
  split <;> simp [worth_branch]

@[simp] theorem worth_assignment (l r : Node) :
    (assignment l r).worth = l.worth + r.worth := by
  simp [assignment, assignmentWith, worth_branch]

@[simp] theorem worth_binary (l r : Node) (op : String) :
    (binary l op r).worth = l.worth + r.worth := by
  unfold binary
  dsimp only
  split <;> split <;> simp [worth_branch]

@[simp] theorem worth_negatedIf (b : Bool) (e : Node) :
    (negatedIf b e).worth = e.worth := by
  cases b with
  | false => rfl
  | true =>
      unfold negatedIf unary
      rw [if_pos rfl]
      split <;> simp [worth_branch]

@[simp] theorem worth_newExpression (e : Node) (args : List Node) :
    (newExpression e args).worth = e.worth + (args.map worth).sum := by
  simp [newExpression, worth_branch]

@[simp] theorem worth_object_one (k : Text) (v : Node) :
    (object [(k, v)]).worth = v.worth := by
  simp [object, pair, worth_branch]

theorem worth_call_identifier (t : Text) (args : List Node) :
    (call (identifier t) args).worth = (args.map worth).sum := by
  rw [worth, weight, tally_call rfl, tally_identifier_callee]
  simp only [tally_price_argument]
  simp [price, Place.useOfCall, Standing.outside]

theorem worth_methodCall (o : Node) (t : Text) (args : List Node) :
    (methodCall o t args).worth
      = o.worth + price (.method t) + (args.map worth).sum := by
  rw [worth, weight, methodCall, tally_call rfl, tally_member_callee]
  simp only [tally_price_argument, tally_price_receiver, worth_operand]
  rfl

theorem isModest_member (o : Node) (t : Text) : (member o t).IsModest := by
  have hwhole : (member o t).IsWhole :=
    isWhole_of_kind (s := .memberExpression) rfl rfl (by decide)
  have hcallee : ∀ d fs, (member o t).tally price ⟨.callee, d, fs⟩
      ≤ (member o t).worth + 3 := by
    intro d fs
    rw [tally_member_callee, tally_price_receiver, worth_operand, worth_member]
    have hprice := price_method_le t
    omega
  exact hwhole.isModest hcallee

theorem isModest_call (e : Node) (args : List Node) :
    (call e args).IsModest :=
  isModest_of_kind (s := .callExpression) rfl rfl (by decide)

end Build

namespace Rules

open Node Build

theorem worth_queryAll (selector : Node) : (queryAll selector).worth = selector.worth := by
  rw [queryAll, worth_methodCall, price_of_not_isSpent (by decide)]
  simp

/-- The siblings of an element are filtered from an array of them. -/
theorem worth_siblingsOf (target : Node) (selector : Option Node) :
    (siblingsOf target selector).worth
      = 2 * target.worth + 1 + (selector.toList.map worth).sum := by
  have hcopy : target.copy.worth = target.worth := tally_price_of_copy (copy_copy target) _
  have hfrom : price (.method "from") = 1 := rfl
  have hfilter : price (.method "filter") = 0 := rfl
  have hmatches : price (.method "matches") = 0 := rfl
  unfold siblingsOf
  simp only [worth_methodCall, hfrom, hfilter,
    List.map_cons, List.map_nil, List.sum_cons, List.sum_nil, worth_arrow,
    worth_identifier, worth_binary, worth_memberNode, worth_member, worth_array,
    worth_propertyIdentifier]
  cases selector with
  | none =>
      simp only [worth_binary, worth_identifier, hcopy, Option.toList_none, List.map_nil,
        List.sum_nil]
      omega
  | some s =>
      simp only [worth_binary, worth_identifier, hcopy, Option.toList_some,
        worth_methodCall, hmatches, List.map_cons,
        List.map_nil, List.sum_cons, List.sum_nil]
      omega

theorem worth_whenLoaded (handler : Node) :
    (whenLoaded handler).worth = handler.worth := by
  rw [whenLoaded, worth_methodCall, price_of_not_isSpent (by decide)]
  simp

end Rules

end Codemod
