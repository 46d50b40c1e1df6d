/-
Assignments to optional chains.

In `a?.b.c` the link `?.` reaches to the end of the chain: what stands on it
through objects and callees is optional too, and nothing can be assigned to
it. The test that keeps such expressions out of rewrites (`isElement`)
looks at the outermost link of a chain only.

A tree whose assignments are sound stays so when a node is exchanged,
unless an optional chain comes into the target of an assignment
(`Cursor.every_plug_iff`). A rewrite brings one there in two ways: it is an
assignment to a part of a wrapped expression, or it puts a part of what it
replaces into a target (`Rewrite.AssignsToChain`). All else that rules write
assigns to no chain (`Node.steady_isAssignable`). Main statement:
`Rule.assignable_apply`.
-/
import Codemod.Proofs.Rule.Steady
import Codemod.Proofs.Rule.Surroundings
import Codemod.Proofs.Tree.Forest

namespace Codemod

open Node

-- ================================================================== chains

/-- The role of what an expression of this kind is reached through: the
object of a property, the callee of a call. -/
def Kind.baseRole? (k : Kind) : Option Role :=
  if k.isAny [.memberExpression, .subscriptExpression] then some .object
  else if k.isAny [.callExpression] then some .function
  else none

namespace Node

/-- There is a `?.` between the parts of the expression. -/
def hasLink (n : Node) : Bool := (n.child? .optionalChain).isSome

mutual

/-- The expression is an optional chain: it, or what it is reached through,
has a `?.`. In parentheses a chain comes to its end. -/
def isOptionalChain : Node → Bool
  | ⟨i, k, b, r, l, t, cs, z⟩ =>
    match k.baseRole? with
    | none => false
    | some role => hasLink ⟨i, k, b, r, l, t, cs, z⟩ || startsChain role cs

/-- The first of the nodes in a role is an optional chain. -/
def startsChain (role : Role) : List Node → Bool
  | [] => false
  | c :: cs => if c.role == some role then isOptionalChain c else startsChain role cs

end

/-- The node assigns to an optional chain, which is an error. -/
def assignsToChain (n : Node) : Bool :=
  n.is .assignmentExpression && (n.child? .left).any isOptionalChain

/-- The node is no assignment to an optional chain. -/
def IsAssignable (n : Node) : Prop := n.assignsToChain = false

variable {n p r : Node} {i k : Nat} {f : Node → Node → Node} {s : Symbol} {role : Role}

theorem startsChain_eq (role : Role) (cs : List Node) :
    startsChain role cs = (cs.find? (·.role == some role)).any isOptionalChain := by
  induction cs with
  | nil => rfl
  | cons c cs ih =>
      rw [startsChain, List.find?_cons, ih]
      cases c.role == some role <;> rfl

theorem isOptionalChain_eq (n : Node) : n.isOptionalChain
    = n.kind.baseRole?.any fun role =>
      n.hasLink || (n.child? role).any isOptionalChain := by
  obtain ⟨i, k, b, r, l, t, cs, z⟩ := n
  rw [isOptionalChain]
  cases k.baseRole? with
  | none => rfl
  | some role => exact congrArg (_ || ·) (startsChain_eq role cs)

theorem isOptionalChain_iff : n.isOptionalChain = true ↔ ∃ role,
    n.kind.baseRole? = some role
      ∧ (n.hasLink = true ∨ ∃ c, n.child? role = some c ∧ c.isOptionalChain = true) := by
  rw [isOptionalChain_eq, Option.any_eq_true]
  simp only [Bool.or_eq_true, Option.any_eq_true]

/-- The kinds of expression that can be optional chains. -/
def chainSymbols : List Symbol := [.memberExpression, .subscriptExpression, .callExpression]

theorem isAny_of_baseRole? (h : n.kind.baseRole? = some role) :
    n.isAny chainSymbols = true := by
  unfold Kind.baseRole? at h
  have hsub : ∀ {ss : List Symbol}, ss ⊆ chainSymbols → n.kind.isAny ss = true →
      n.isAny chainSymbols = true := fun hss hk => by
    obtain ⟨s, hs, hks⟩ := List.any_eq_true.1 hk
    exact List.any_eq_true.2 ⟨s, hss hs, hks⟩
  split at h
  · next hk => exact hsub (by decide) hk
  · split at h
    · next hk => exact hsub (by decide) hk
    · cases h

theorem isOptionalChain_of_kind (hk : n.is s = true) (hs : s ∉ chainSymbols) :
    n.isOptionalChain = false := by
  rw [Bool.eq_false_iff]
  intro h
  obtain ⟨role, hrole, -⟩ := isOptionalChain_iff.1 h
  cases (isAny_of_baseRole? hrole).symm.trans (isAny_false_of_kind hk hs)

theorem isAssignable_of_kind (hk : n.is s = true) (hs : s ≠ .assignmentExpression) :
    n.IsAssignable := by
  rw [IsAssignable, assignsToChain, is_false_of_kind (is_iff.1 hk) hs, Bool.false_and]

/-- Names and `this` are no chains. -/
theorem isOptionalChain_of_isReference (h : n.isReference = true) :
    n.isOptionalChain = false := by
  rw [Bool.eq_false_iff]
  intro hchain
  obtain ⟨role, hrole, -⟩ := isOptionalChain_iff.1 hchain
  obtain ⟨s, hs, hk⟩ := List.any_eq_true.1 (isAny_of_baseRole? hrole)
  have hplain : ∀ s ∈ chainSymbols, s ≠ .parenthesizedExpression
      ∧ s ∉ [Symbol.identifier, .thisExpr] := by decide
  have hstrip : n.strip = n := strip_of_no_operand fun hp => by
    rw [is_false_of_kind (is_iff.1 hk) (hplain s hs).1] at hp
    cases hp
  rw [isReference, hstrip, isAny_false_of_kind hk (hplain s hs).2] at h
  cases h

/-- Only the kind, the link and what it is reached through make an expression
a chain. -/
theorem isOptionalChain_congr {m : Node} (hkind : m.kind = n.kind)
    (hlink : m.hasLink = n.hasLink)
    (hbase : ∀ role, n.kind.baseRole? = some role →
      (m.child? role).any isOptionalChain = (n.child? role).any isOptionalChain) :
    m.isOptionalChain = n.isOptionalChain := by
  rw [isOptionalChain_eq, isOptionalChain_eq n, hkind, hlink]
  cases hrole : n.kind.baseRole? with
  | none => rfl
  | some role => rw [Option.any_some, Option.any_some, hbase role hrole]

theorem isOptionalChain_placed {r : Option Role} {l : Text} :
    (n.placed r l).isOptionalChain = n.isOptionalChain :=
  isOptionalChain_congr rfl rfl fun _ _ => rfl

-- ------------------------------------------------------- copies and numbers

theorem isOptionalChain_copy (n : Node) : n.copy.isOptionalChain = n.isOptionalChain := by
  induction n using Node.ind with
  | h n ih =>
      refine isOptionalChain_congr (by rw [copy_eq]) ?_ fun role _ => ?_
      · rw [hasLink, hasLink, child?_copy, Option.isSome_map]
      · rw [child?_copy]
        cases hc : n.child? role with
        | none => rfl
        | some c => exact ih c (List.mem_of_find?_eq_some hc)

theorem isAssignable_copy : n.copy.IsAssignable ↔ n.IsAssignable := by
  have hleft : (n.copy.child? .left).any isOptionalChain
      = (n.child? .left).any isOptionalChain := by
    rw [child?_copy, Option.any_map]
    exact congrArg (Option.any · _) (funext isOptionalChain_copy)
  rw [IsAssignable, IsAssignable, assignsToChain, assignsToChain, is_copy, hleft]

theorem isOptionalChain_number (k : Nat) (n : Node) :
    (n.number k).1.isOptionalChain = n.isOptionalChain := by
  rw [← isOptionalChain_copy, copy_number, isOptionalChain_copy]

-- ----------------------------------------------------------- substitution

theorem isOptionalChain_of_isAny {ss : List Symbol} (hk : n.isAny ss = true)
    (hss : ∀ s ∈ ss, s ∉ chainSymbols) : n.isOptionalChain = false := by
  obtain ⟨s, hs, hk⟩ := List.any_eq_true.1 hk
  exact isOptionalChain_of_kind hk (hss s hs)

/-- Whether an expression is a chain does not depend on names in it. -/
theorem isOptionalChain_swapped (h : n.Swaps i f) :
    (n.substitute i f).isOptionalChain = n.isOptionalChain
      ∧ ∀ q, (substituteChild i f q n).isOptionalChain = n.isOptionalChain := by
  induction n using Node.ind with
  | h n ih =>
      have hchild := child?_substitute (n := n) (f := f) fun c hc hid =>
        h.role n c (mem_walk_of_child hc (self_mem_walk c)) hid
      have hsame : (n.substitute i f).isOptionalChain = n.isOptionalChain := by
        refine isOptionalChain_congr (by rw [substitute_eq]) ?_ fun role _ => ?_
        · rw [hasLink, hasLink, hchild, Option.isSome_map]
        · rw [hchild]
          cases hc : n.child? role with
          | none => rfl
          | some c =>
              have hmem := List.mem_of_find?_eq_some hc
              exact (ih c hmem (h.of_mem_walk (mem_walk_of_child hmem (self_mem_walk c)))).2 n
      refine ⟨hsame, fun q => ?_⟩
      unfold substituteChild
      split
      · next hid =>
          have hid : n.id = some i := by simpa using hid
          rw [isOptionalChain_of_isAny (h.old n (self_mem_walk n) hid) (by decide),
            isOptionalChain_of_isAny (h.new q n (self_mem_walk n) hid) (by decide)]
      · exact hsame

theorem isAssignable_substitute (h : n.Swaps i f) (hn : n.IsAssignable) :
    (n.substitute i f).IsAssignable := by
  have hleft : ((n.substitute i f).child? .left).any isOptionalChain
      = (n.child? .left).any isOptionalChain := by
    rw [child?_substitute fun c hc hid =>
      h.role n c (mem_walk_of_child hc (self_mem_walk c)) hid]
    cases hc : n.child? .left with
    | none => rfl
    | some c =>
        exact (isOptionalChain_swapped (h.of_mem_walk (mem_walk_of_child
          (List.mem_of_find?_eq_some hc) (self_mem_walk c)))).2 n
  rwa [IsAssignable, assignsToChain, is_substitute, hleft]

/-- What the rules write assigns to no chain, if that holds of the
assignments that they build and of what they move. -/
theorem steady_isAssignable : Steady IsAssignable where
  placed _ _ _ h := h
  built n _ hn := by
    rcases hn with hn | hn
    · rw [IsAssignable, assignsToChain, child?, hn, List.find?_nil, Option.any_none,
        Bool.and_false]
    · rw [isNotable, Bool.or_eq_false_iff] at hn
      rw [IsAssignable, assignsToChain, hn.2, Bool.false_and]
  arrow _ _ := rfl
  swapped h hn := isAssignable_substitute h hn

end Node

-- =============================================================== building

namespace Build

variable {e o : Node} {t op : Text} {args : List Node} {s : Symbol} {role : Role}

/-- A chain is an operand without parentheses. -/
theorem isOptionalChain_of_needsParentheses {parent : Kind} {role : Option Role}
    (h : needsParentheses e.kind parent role = true) : e.isOptionalChain = false := by
  rw [Bool.eq_false_iff]
  intro hchain
  obtain ⟨_, hbase, -⟩ := isOptionalChain_iff.1 hchain
  obtain ⟨s, hs, hk⟩ := List.any_eq_true.1 (isAny_of_baseRole? hbase)
  have hsub : ∀ s ∈ chainSymbols, s ∈ primarySymbols := by decide
  have hprimary : e.kind.isAny primarySymbols = true :=
    List.any_eq_true.2 ⟨s, hsub s hs, hk⟩
  rw [needsParentheses, if_pos hprimary] at h
  cases h

theorem isOptionalChain_operand : (operand e s role).isOptionalChain = e.isOptionalChain := by
  unfold operand
  split
  · next h => exact (isOptionalChain_of_needsParentheses h).symm
  · rfl

theorem isOptionalChain_member : (member o t).isOptionalChain = o.isOptionalChain := by
  rw [isOptionalChain_eq]
  show (inRole (operand o .memberExpression .object) .object).isOptionalChain = _
  rw [inRole, isOptionalChain_placed, isOptionalChain_operand]

theorem isOptionalChain_path {ts : List Text} :
    (path o ts).isOptionalChain = o.isOptionalChain := by
  induction ts generalizing o with
  | nil => rfl
  | cons t ts ih => exact ih.trans isOptionalChain_member

theorem isOptionalChain_call : (call e args).isOptionalChain = e.isOptionalChain := by
  rw [isOptionalChain_eq]
  show (inRole (operand e .callExpression .function) .function).isOptionalChain = _
  rw [inRole, isOptionalChain_placed, isOptionalChain_operand]

theorem isOptionalChain_methodCall :
    (methodCall o t args).isOptionalChain = o.isOptionalChain :=
  isOptionalChain_call.trans isOptionalChain_member

theorem assignsToChain_assignment : (assignment e o).assignsToChain = e.isOptionalChain :=
  isOptionalChain_placed (n := e)

end Build

-- ================================================================ targets

namespace Cursor

/-- The place belongs to the target of an assignment: the target stands
there, or what it is reached through. -/
inductive InTarget : Cursor → Prop where
  | left {p c : Cursor} : p.is .assignmentExpression = true → p.child? .left = some c →
    InTarget c
  | base {p c : Cursor} {role : Role} : p.node.kind.baseRole? = some role →
    p.child? role = some c → InTarget p → InTarget c

section Upwards

variable {p n r : Node} {up : List (Node × Nat)} {i : Nat}

/-- A child that is exchanged is the first in its role before and afterwards,
or it is in neither. -/
theorem child?_exchange_cases (up : List (Node × Nat)) (hi : p.children[i]? = some n)
    (hrole : r.role = n.role) (role : Role) :
    ((⟨p, up⟩ : Cursor).child? role = some ⟨n, (p, i) :: up⟩
        ∧ p.child? role = some n ∧ (p.exchange i r).child? role = some r)
      ∨ ((⟨p, up⟩ : Cursor).child? role ≠ some ⟨n, (p, i) :: up⟩
        ∧ (p.exchange i r).child? role = p.child? role) := by
  suffices h : ∀ (cs : List Node) (i j : Nat), cs[i]? = some n →
      ((childrenFrom p up j cs).find? (·.node.role == some role)
            = some ⟨n, (p, j + i) :: up⟩
          ∧ cs.find? (·.role == some role) = some n
          ∧ (cs.set i r).find? (·.role == some role) = some r)
        ∨ ((childrenFrom p up j cs).find? (·.node.role == some role)
            ≠ some ⟨n, (p, j + i) :: up⟩
          ∧ (cs.set i r).find? (·.role == some role) = cs.find? (·.role == some role)) by
    have hcs := h p.children i 0 hi
    rwa [Nat.zero_add] at hcs
  intro cs
  induction cs with
  | nil => intro i j hi; cases hi
  | cons c cs ih =>
      intro i j hi
      rw [childrenFrom, List.find?_cons, List.find?_cons]
      cases i with
      | zero =>
          obtain rfl : c = n := Option.some.inj hi
          rw [List.set_cons_zero, List.find?_cons, hrole]
          cases hc : c.role == some role with
          | true => exact Or.inl ⟨rfl, rfl, rfl⟩
          | false =>
              refine Or.inr ⟨fun h => ?_, rfl⟩
              obtain ⟨k, -, hk⟩ := mem_childrenFrom.1 (List.mem_of_find?_eq_some h)
              have hk : j + 0 = j + 1 + k := congrArg (fun up => (up.headD (p, 0)).2) hk
              omega
      | succ i =>
          rw [List.set_cons_succ, List.find?_cons]
          cases hc : c.role == some role with
          | true =>
              refine Or.inr ⟨fun h => ?_, rfl⟩
              have hk : j = j + (i + 1) := by
                simpa using congrArg Cursor.above (Option.some.inj h)
              omega
          | false =>
              rw [show j + (i + 1) = j + 1 + i by omega]
              exact ih i (j + 1) hi

theorem not_inTarget_top (n : Node) : ¬ (top n).InTarget := by
  intro h
  cases h <;> exact absurd (mem_children_of_child? ‹_›) (by simp [mem_children, top])

theorem inTarget_cons : (⟨n, (p, i) :: up⟩ : Cursor).InTarget
    ↔ (p.is .assignmentExpression = true
        ∧ (⟨p, up⟩ : Cursor).child? .left = some ⟨n, (p, i) :: up⟩)
      ∨ ∃ role, p.kind.baseRole? = some role
        ∧ (⟨p, up⟩ : Cursor).child? role = some ⟨n, (p, i) :: up⟩
        ∧ (⟨p, up⟩ : Cursor).InTarget := by
  have hparent {q : Cursor} {role : Role}
      (h : q.child? role = some ⟨n, (p, i) :: up⟩) : q = ⟨p, up⟩ :=
    (Option.some.inj (parent?_of_mem_children (mem_children_of_child? h))).symm
  constructor
  · rintro (⟨hk, h⟩ | ⟨hrole, h, hup⟩)
    · obtain rfl := hparent h
      exact Or.inl ⟨hk, h⟩
    · obtain rfl := hparent h
      exact Or.inr ⟨_, hrole, h, hup⟩
  · rintro (⟨hk, h⟩ | ⟨role, hrole, h, hup⟩)
    · exact .left (p := ⟨p, up⟩) hk h
    · exact .base (p := ⟨p, up⟩) hrole h hup

/-- In a tree that assigns to no chain there is none in a target. -/
theorem InTarget.not_isOptionalChain {c : Cursor} (h : c.InTarget) (hc : c.Placed)
    (hfree : c.root.node.Every IsAssignable) : c.node.isOptionalChain = false := by
  obtain ⟨n, above⟩ := c
  induction above generalizing n with
  | nil => exact absurd h (not_inTarget_top n)
  | cons pi up ih =>
      obtain ⟨p, i⟩ := pi
      have hp : (⟨p, up⟩ : Cursor).Placed := hc.2
      rcases inTarget_cons.1 h with ⟨hk, hleft⟩ | ⟨role, hrole, hbase, hup⟩
      · have hsound : p.IsAssignable := hfree p (node_mem_walk hp.mem_walk_root)
        rwa [IsAssignable, assignsToChain, hk, node_child? hleft] at hsound
      · have hp := ih p hup hp hfree
        rw [Bool.eq_false_iff] at hp ⊢
        exact fun hn => hp (isOptionalChain_iff.2
          ⟨role, hrole, Or.inr ⟨n, node_child? hbase, hn⟩⟩)

section Exchange

variable (up) (hi : p.children[i]? = some n) (hrole : r.role = n.role)
include hi hrole

/-- What is no chain becomes one by a part just when that is one, and it is
reached through it. -/
theorem isOptionalChain_exchange (hp : p.isOptionalChain = false) :
    (p.exchange i r).isOptionalChain = true ↔ r.isOptionalChain = true
      ∧ ∃ role, p.kind.baseRole? = some role
        ∧ (⟨p, up⟩ : Cursor).child? role = some ⟨n, (p, i) :: up⟩ := by
  rw [Bool.eq_false_iff] at hp
  rw [isOptionalChain_iff]
  constructor
  · rintro ⟨role, (hbase : p.kind.baseRole? = some role), h⟩
    rcases h with hlink | ⟨c, hc, hchain⟩
    · refine absurd (isOptionalChain_iff.2 ⟨role, hbase, Or.inl ?_⟩) hp
      rcases child?_exchange hi hrole .optionalChain with heq | ⟨-, hn⟩
      · rwa [hasLink, heq] at hlink
      · rw [hasLink, hn]
        rfl
    · rcases child?_exchange_cases up hi hrole role with ⟨hat, -, hr⟩ | ⟨-, heq⟩
      · obtain rfl : r = c := Option.some.inj (hr.symm.trans hc)
        exact ⟨hchain, role, hbase, hat⟩
      · rw [heq] at hc
        exact absurd (isOptionalChain_iff.2 ⟨role, hbase, Or.inr ⟨c, hc, hchain⟩⟩) hp
  · rintro ⟨hchain, role, hbase, hat⟩
    rcases child?_exchange_cases up hi hrole role with ⟨-, -, hr⟩ | ⟨hne, -⟩
    · exact ⟨role, hbase, Or.inr ⟨r, hr, hchain⟩⟩
    · exact absurd hat hne

/-- What assigns to no chain comes to do so by a part just when that is a
chain, and the target. -/
theorem assignsToChain_exchange (hp : p.IsAssignable) :
    (p.exchange i r).assignsToChain = true ↔ r.isOptionalChain = true
      ∧ p.is .assignmentExpression = true
        ∧ (⟨p, up⟩ : Cursor).child? .left = some ⟨n, (p, i) :: up⟩ := by
  have hkind : (p.exchange i r).is .assignmentExpression = p.is .assignmentExpression := rfl
  rw [assignsToChain, hkind, Bool.and_eq_true]
  rcases child?_exchange_cases up hi hrole .left with ⟨hat, -, hr⟩ | ⟨hne, heq⟩
  · rw [hr, Option.any_some]
    exact ⟨fun ⟨hk, hchain⟩ => ⟨hchain, hk, hat⟩, fun ⟨hchain, hk, _⟩ => ⟨hk, hchain⟩⟩
  · rw [heq, ← Bool.and_eq_true, ← assignsToChain, show p.assignsToChain = false from hp]
    exact ⟨nofun, fun ⟨_, _, hat⟩ => absurd hat hne⟩

end Exchange

/-- A tree whose assignments are sound stays so when a node is exchanged,
unless a chain comes into a target. -/
theorem every_plug_iff {above : List (Node × Nat)} (hc : PlacedIn n above)
    (hfree : (rootIn n above).Every IsAssignable) (hrole : r.role = n.role)
    (hnew : r.Every IsAssignable) : (plug above r).Every IsAssignable
      ↔ ¬ (r.isOptionalChain = true ∧ (⟨n, above⟩ : Cursor).InTarget) := by
  induction above generalizing n r with
  | nil => exact iff_of_true hnew fun h => not_inTarget_top n h.2
  | cons pi up ih =>
      obtain ⟨p, i⟩ := pi
      have hi : p.children[i]? = some n := hc.1
      have hplaced : (⟨p, up⟩ : Cursor).Placed := hc.2
      obtain ⟨hp, hcs⟩ := every_iff.1
        (hfree.of_mem_walk (node_mem_walk hplaced.mem_walk_root))
      have hassigns := assignsToChain_exchange up hi hrole hp
      rw [inTarget_cons]
      cases hbad : (p.exchange i r).assignsToChain with
      | true =>
          -- the parent is an assignment to what has been put in
          rw [hbad] at hassigns
          obtain ⟨hchain, hleft⟩ := hassigns.1 rfl
          refine iff_of_false (fun h => ?_) fun h => h ⟨hchain, Or.inl hleft⟩
          cases hbad.symm.trans (h _ (mem_walk_plug_self up hplaced))
      | false =>
          rw [hbad] at hassigns
          have hset : (p.exchange i r).Every IsAssignable := by
            refine every_iff.2 ⟨hbad, fun c hc => ?_⟩
            rcases List.mem_or_eq_of_mem_set hc with hc | rfl
            · exact hcs c hc
            · exact hnew
          refine (ih (n := p) (r := p.exchange i r) hc.2 hfree rfl hset).trans (not_congr ?_)
          constructor
          · rintro ⟨hchain, hup⟩
            obtain ⟨hr, role, hbase, hat⟩ := (isOptionalChain_exchange up hi hrole
              (hup.not_isOptionalChain hplaced hfree)).1 hchain
            exact ⟨hr, Or.inr ⟨role, hbase, hat, hup⟩⟩
          · rintro ⟨hr, hleft | ⟨role, hbase, hat, hup⟩⟩
            · cases hassigns.2 ⟨hr, hleft⟩
            · exact ⟨(isOptionalChain_exchange up hi hrole
                (hup.not_isOptionalChain hplaced hfree)).2 ⟨hr, role, hbase, hat⟩, hup⟩

end Upwards

end Cursor

-- ================================================================= forms

section Forms

open Cursor

variable {context : RuleContext} {c m o a arg : Cursor} {name : Text}
  {methods : List String} {new target : Node}

/-- An element that is a chain has been taken out of a call of the factory:
what is looked up or copied is none. -/
theorem ElementOf.exists_argument (h : ElementOf context o target)
    (hchain : target.isOptionalChain = true) :
    ∃ a, o.isFactoryCall context.factoryNames = .ok true ∧ o.arguments = [a]
      ∧ a.isElement = true ∧ target = a.node := by
  cases h with
  | moved hf ha helement => exact ⟨_, hf, ha, helement, rfl⟩
  | lookedUp _ _ _ _ =>
      rw [elementById, Build.isOptionalChain_methodCall] at hchain
      cases hchain
  | copied _ _ _ _ helement hstable =>
      rw [isOptionalChain_copy, isOptionalChain_of_isReference
        (isReference_of_isStableAt helement hstable)] at hchain
      cases hchain

/-- The test for elements has looked at the outermost link of a chain. -/
theorem Cursor.isOptional_of_isElement (h : a.isElement = true)
    (hchain : a.node.isOptionalChain = true) : a.node.isOptional = false := by
  obtain ⟨role, hrole, -⟩ := isOptionalChain_iff.1 hchain
  obtain ⟨s, hs, hk⟩ := List.any_eq_true.1 (isAny_of_baseRole? hrole)
  have hne : ∀ s ∈ chainSymbols, s ≠ .parenthesizedExpression ∧ s ≠ .thisExpr
      ∧ s ≠ .identifier := by decide
  have hno : ∀ t, s ≠ t → a.is t = false := fun t => is_false_of_kind (is_iff.1 hk)
  obtain ⟨hparen, hthis, hident⟩ := hne s hs
  rw [isElement, elementDepth, isElementWithin] at h
  simp only [unparen_of_not_parens (hno _ hparen), hno _ hthis, hno _ hident,
    Bool.false_eq_true, if_false] at h
  split at h
  · split at h
    · simpa using (Bool.and_eq_true_iff.1 h).2
    · cases h
  · split at h
    · rwa [Bool.not_eq_true'] at h
    · split at h
      · split at h
        · simpa using (Bool.and_eq_true_iff.1 h).2
        · cases h
      · cases h

theorem Cursor.HasElement.exists_chain (hm : c.calledMember? = some (m, name))
    (h : m.HasElement context target) (hchain : target.isOptionalChain = true) :
    ∃ d : Cursor, d.Below c ∧ d.node.isOptionalChain = true := by
  obtain ⟨o, ho, helement⟩ := h
  obtain ⟨a, -, ha, -, rfl⟩ := helement.exists_argument hchain
  have hmem : a ∈ o.unparen.arguments := by rw [ha]; exact List.mem_singleton.2 rfl
  exact ⟨a, ((below_of_object hm ho).of_mem_walk (unparen_mem_walk o)).of_mem_walk
    (mem_walk_of_mem_arguments hmem), hchain⟩

/-- Where a chain is put in, a part of what is replaced is one. -/
theorem MethodForm.exists_chain (hm : c.calledMember? = some (m, name))
    (h : MethodForm context c m name methods new) (hchain : new.isOptionalChain = true) :
    ∃ d : Cursor, d.Below c ∧ d.node.isOptionalChain = true := by
  have harg : ∀ d ∈ c.arguments, d.node.isOptionalChain = true →
      ∃ d : Cursor, d.Below c ∧ d.node.isOptionalChain = true :=
    fun d hd h => ⟨d, below_of_mem_arguments hd, h⟩
  cases h with
  | tell _ _ _ _ _ _ ht _ =>
      rw [Build.isOptionalChain_methodCall, Build.isOptionalChain_path] at hchain
      exact ht.exists_chain hm hchain
  | read _ _ _ ht => exact ht.exists_chain hm (Build.isOptionalChain_member ▸ hchain)
  | prop _ ht => exact ht.exists_chain hm (Build.isOptionalChain_member ▸ hchain)
  | dispatch ht _ | remove _ ht _ | empty _ ht _ | insert ht _ =>
      exact ht.exists_chain hm (Build.isOptionalChain_methodCall ▸ hchain)
  | each _ _ hargs _ | grep _ _ hargs | map _ _ hargs _ | trim _ _ hargs _ =>
      rw [Build.isOptionalChain_methodCall] at hchain
      exact harg _ (by rw [hargs]; exact List.mem_cons_self) hchain
  | write _ _ _ _ _ | display _ _ _ _ => cases hchain
  | computed _ | size _ _ | loaded _ _ _ | neighbour _ _ _ | found _ _ _ | closest _ _ _ _
    | siblings _ _ _ _ _ | visit _ _ _ _ _ =>
      simp only [Build.isOptionalChain_methodCall, Build.isOptionalChain_path,
        Build.isOptionalChain_call, Rules.whenLoaded, Rules.queryAll, rewrap] at hchain
      cases hchain

theorem FactoryForm.exists_chain (ha : c.arguments = [arg])
    (h : FactoryForm context c arg new) (hchain : new.isOptionalChain = true) :
    ∃ d : Cursor, d.Below c ∧ d.node.isOptionalChain = true := by
  cases h with
  | unwrap _ _ =>
      exact ⟨arg, below_of_mem_arguments (by rw [ha]; exact List.mem_singleton.2 rfl), hchain⟩
  | byId _ _ | byClass _ _ | loaded _ _ =>
      simp only [elementById, Rules.queryAll, Rules.whenLoaded,
        Build.isOptionalChain_methodCall] at hchain
      cases hchain

theorem exists_chain_of_negatedIf {negated : Bool} {e : Node}
    (hchain : (Build.negatedIf negated e).isOptionalChain = true) :
    e.isOptionalChain = true := by
  cases negated with
  | true => cases hchain
  | false => exact hchain

theorem WrapperForm.exists_chain (h : WrapperForm context c methods new)
    (hchain : new.isOptionalChain = true) :
    ∃ d : Cursor, d.Below c ∧ d.node.isOptionalChain = true := by
  cases h with
  | method _ hm hform => exact hform.exists_chain hm hchain
  | factory _ ha hform => exact hform.exists_chain ha hchain
  | @inArray _ _ _ _ _ array _ hcmp _ _ _ _ hargs =>
      have hchain := exists_chain_of_negatedIf hchain
      rw [Build.isOptionalChain_methodCall] at hchain
      exact ⟨array, (below_of_compares hcmp).1.of_mem_walk (mem_walk_of_mem_arguments
        (by rw [hargs]; simp)), hchain⟩

theorem IdiomForm.exists_chain (h : IdiomForm c new) (hchain : new.isOptionalChain = true) :
    ∃ d : Cursor, d.Below c ∧ d.node.isOptionalChain = true := by
  cases h with
  | power _ _ | spread _ _ _ => cases hchain
  | slice _ _ hm _ _ ho _ =>
      rw [Build.isOptionalChain_methodCall] at hchain
      exact ⟨_, (below_of_object hm ho).of_mem_walk (unparen_mem_walk _), hchain⟩
  | test hcmp _ hm _ _ _ ho hreceiver _ =>
      have hchain := exists_chain_of_negatedIf hchain
      rw [Build.isOptionalChain_methodCall] at hchain
      have hbelow := (below_of_compares hcmp).1.of_mem_walk (below_of_object hm ho).mem_walk
      rcases hreceiver with rfl | rfl
      · exact ⟨_, hbelow, hchain⟩
      · exact ⟨_, hbelow.of_mem_walk (unparen_mem_walk _), hchain⟩
  | start hcmp _ hm _ ho =>
      have hchain := exists_chain_of_negatedIf hchain
      rw [Build.isOptionalChain_methodCall] at hchain
      exact ⟨_, ((below_of_compares hcmp).1.of_mem_walk (below_of_object hm ho).mem_walk).of_mem_walk
        (unparen_mem_walk _), hchain⟩

/-- A method call on the wrapper of an expression becomes an assignment to a
part of the expression. This is an optional chain, but its outermost link
holds no `?.`. -/
inductive AssignsThrough (context : RuleContext) (c : Cursor) : Node → Prop where
  | intro {m o a : Cursor} {name : Text} (path : List Text) (value : Node) :
    c.calledMember? = some (m, name) → m.child? .object = some o →
    o.unparen.isFactoryCall context.factoryNames = .ok true →
    o.unparen.arguments = [a] → a.isElement = true → a.node.isOptional = false →
    a.node.isOptionalChain = true →
    AssignsThrough context c (Build.assignment (Build.path a.node path) value)

theorem AssignsThrough.assignsToChain (h : AssignsThrough context c new) :
    new.assignsToChain = true := by
  obtain ⟨path, value, -, -, -, -, -, -, hchain⟩ := h
  rwa [Build.assignsToChain_assignment, Build.isOptionalChain_path]

theorem WrapperForm.assignsThrough (h : WrapperForm context c methods new)
    (hnew : new.assignsToChain = true) : AssignsThrough context c new := by
  have hk : new.is .assignmentExpression = true := (Bool.and_eq_true_iff.1 hnew).1
  cases h with
  | method _ hm hform =>
      obtain ⟨target, path, value, ⟨o, ho, helement⟩, rfl⟩ := hform.exists_assignment hk
      rw [Build.assignsToChain_assignment, Build.isOptionalChain_path] at hnew
      obtain ⟨a, hf, ha, hel, rfl⟩ := helement.exists_argument hnew
      exact .intro path value hm ho hf ha hel (isOptional_of_isElement hel hnew) hnew
  | @factory arg _ _ _ hform =>
      cases hform with
      | unwrap helement _ =>
          -- an assignment denotes no element
          have hself : arg.unparen = arg :=
            unparen_of_not_parens (is_false_of_kind (is_iff.1 hk) (by decide))
          have hany := isAny_of_isElementWithin helement
          rw [hself, Cursor.isAny, isAny_false_of_kind hk (by decide)] at hany
          cases hany
      | _ => cases hk
  | @inArray _ _ _ _ _ _ negated _ _ _ _ _ _ => cases negated <;> cases hk

theorem IdiomForm.not_assignsToChain (h : IdiomForm c new) : new.assignsToChain = false := by
  cases h with
  | @test _ _ _ _ _ _ _ _ negated => cases negated <;> rfl
  | @start _ _ _ _ _ negated => cases negated <;> rfl
  | _ => rfl

end Forms

-- ================================================================== steps

/-- The rewrite brings an optional chain into the target of an assignment. -/
def Rewrite.AssignsToChain (r : Rewrite) : Prop :=
  r.new.assignsToChain = true ∨ (r.new.isOptionalChain = true ∧ r.site.InTarget)

section Steps

variable {context : RuleContext} {names : List Text} {k : Symbol} {w w' : Workspace}
  {r : Rewrite} {p : Cursor} {rule : Rule} {sweeps : List Sweep} {s : Sweep}

/-- Fitted in, an expression assigns to chains as it did. -/
theorem every_fitted_iff {parent old n : Node} :
    (Workspace.fitted parent old n).Every IsAssignable ↔ n.Every IsAssignable := by
  refine ⟨fun h => ?_, steady_isAssignable.every_fitted⟩
  have hplaced : ∀ {r : Option Role} {l : Text}, (n.placed r l).Every IsAssignable →
      n.Every IsAssignable := fun h =>
    (placed_self n ▸ steady_isAssignable.every_placed (r := n.role) (l := n.lead) h :)
  unfold Workspace.fitted at h
  simp only at h
  split at h
  · refine hplaced (r := none) (l := []) ((every_iff.1 h).2 _ ?_)
    exact List.mem_cons_of_mem _ List.mem_cons_self
  · exact hplaced h

theorem isOptionalChain_fitted {parent old n : Node} :
    (Workspace.fitted parent old n).isOptionalChain = n.isOptionalChain := by
  unfold Workspace.fitted
  simp only [isOptionalChain_placed]
  split
  · next h => exact (Build.isOptionalChain_of_needsParentheses h).symm
  · rfl

/-- A program whose assignments are sound stays so in a step, unless the step
brings a chain into a target. -/
theorem Step.every_after_iff (h : Step names k w r p)
    (hfree : w.program.Every IsAssignable)
    (hnew : r.new.assignsToChain = false → r.new.Every IsAssignable) :
    (w.after r p).program.Every IsAssignable ↔ ¬ r.AssignsToChain := by
  obtain ⟨hplaced, -⟩ := Cursor.mem_walk_top.1 h.mem
  have hroot := Workspace.rootIn_eq h.mem
  have hins : (w.inserted p.node r.site.node r.new).1.Every IsAssignable
      ↔ r.new.Every IsAssignable :=
    (every_number fun _ => isAssignable_copy).trans every_fitted_iff
  rw [h.program_after, Rewrite.AssignsToChain]
  cases hbad : r.new.assignsToChain with
  | true =>
      refine iff_of_false (fun hall => ?_) fun hno => hno (Or.inl rfl)
      have hall := hins.1 (hall.of_mem_walk (Cursor.mem_walk_plug_self _ hplaced))
      cases hbad.symm.trans (hall r.new (self_mem_walk r.new))
  | false =>
      have hchain : (w.inserted p.node r.site.node r.new).1.isOptionalChain
          = r.new.isOptionalChain :=
        (isOptionalChain_number _ _).trans isOptionalChain_fitted
      have hrole : (w.inserted p.node r.site.node r.new).1.role = r.site.node.role :=
        (Workspace.role_number _ _).trans (Workspace.role_fitted _ _ _)
      rw [← hroot] at hfree
      rw [Cursor.every_plug_iff hplaced hfree hrole (hins.2 (hnew hbad)), hchain]
      simp

/-- What a rule puts in is without assignments to chains, unless it is one
itself. -/
theorem Step.every_new (h : rule ∈ Registry.builtin.rules)
    (haction : rule.action = .sweeps sweeps) (hs : s ∈ sweeps)
    (hstep : Step context.factoryNames k w r p)
    (hr : s.replacement context r.site = .ok (some r.new))
    (hfree : w.program.Every IsAssignable) (hnew : r.new.assignsToChain = false) :
    r.new.Every IsAssignable := by
  have hsite : r.site.node.Every IsAssignable :=
    hfree.of_mem_walk (Cursor.node_mem_walk hstep.mem)
  have hQ := steady_isAssignable
  rcases hstep.form h haction hs hr with ⟨-, names, hform⟩ | ⟨-, hform⟩
  · exact hform.every hQ (hstep.sound.stands hstep.mem) hsite fun _ => hnew
  · exact hform.every hQ.toLenient hsite

/-- How a rule comes to assign to a chain, and where it puts one in. -/
theorem Step.assignsToChain_iff (h : rule ∈ Registry.builtin.rules)
    (haction : rule.action = .sweeps sweeps) (hs : s ∈ sweeps)
    (hstep : Step context.factoryNames k w r p)
    (hr : s.replacement context r.site = .ok (some r.new)) :
    (r.new.assignsToChain = true ↔ AssignsThrough context r.site r.new)
      ∧ (r.new.isOptionalChain = true →
        ∃ d : Cursor, d.Below r.site ∧ d.node.isOptionalChain = true) := by
  rcases hstep.form h haction hs hr with ⟨-, names, hform⟩ | ⟨-, hform⟩
  · exact ⟨⟨hform.assignsThrough, AssignsThrough.assignsToChain⟩, hform.exists_chain⟩
  · refine ⟨⟨fun hnew => ?_, AssignsThrough.assignsToChain⟩, hform.exists_chain⟩
    cases hform.not_assignsToChain.symm.trans hnew

namespace Course

variable {rs : List Rewrite}

/-- The assignments stay sound up to the first rewrite that brings a chain
into a target, and no longer. -/
theorem every_isAssignable (h : Course names k w rs w')
    (hstep : ∀ r ∈ rs, ∀ v p, Step names k v r p → v.program.Every IsAssignable →
      ((v.after r p).program.Every IsAssignable ↔ ¬ r.AssignsToChain))
    (hw : w.program.Every IsAssignable) :
    ((∀ r ∈ rs, ¬ r.AssignsToChain) → w'.program.Every IsAssignable)
      ∧ ∀ before r after, rs = before ++ r :: after →
        (∀ q ∈ before, ¬ q.AssignsToChain) →
        ∃ v p, Step names k v r p ∧ v.program.Every IsAssignable
          ∧ ((v.after r p).program.Every IsAssignable ↔ ¬ r.AssignsToChain) := by
  induction h with
  | done _ => exact ⟨fun _ => hw, fun before r after h => by simp at h⟩
  | @step w w' q p rs hq _ ih =>
      rw [List.forall_mem_cons] at hstep
      have hafter := hstep.1 w p hq hw
      refine ⟨fun hno => ?_, fun before r after heq hno => ?_⟩
      · rw [List.forall_mem_cons] at hno
        exact (ih hstep.2 (hafter.2 hno.1)).1 hno.2
      · cases before with
        | nil =>
            obtain ⟨rfl, -⟩ := List.cons.inj heq
            exact ⟨w, p, hq, hw, hafter⟩
        | cons b before =>
            rw [List.cons_append] at heq
            obtain ⟨rfl, htail⟩ := List.cons.inj heq
            rw [List.forall_mem_cons] at hno
            exact (ih hstep.2 (hafter.2 hno.1)).2 before r after htail hno.2

end Course

/-- Taking directives out makes no assignment. -/
theorem Rules.isAssignable_dropUseStrict {is : List Nat} {changed : Bool}
    (hp : w.program.is .program = true) (hw : w.program.Every IsAssignable) :
    (dropUseStrict is changed w).1.program.Every IsAssignable := by
  induction is generalizing changed w with
  | nil => exact hw
  | cons i is ih =>
      rw [dropUseStrict]
      split
      · exact ih hp hw
      · next n hn =>
          split
          · exact ih hp hw
          · split
            · exact hw
            · unfold dropStatement
              split
              · exact ih hp hw
              · refine ih hp (every_iff.2
                  ⟨isAssignable_of_kind (s := .program) hp (by decide), fun d hd => ?_⟩)
                obtain ⟨c, hc, l, rfl⟩ := mem_dropHandingLead hd
                exact steady_isAssignable.every_placed ((every_iff.1 hw).2 c hc)
            · split
              · exact ih hp hw
              · exact hw

/-- A built-in rule leaves the assignments of a parsed program sound, unless
a rewrite of it brings an optional chain into a target; then they are sound
up to the first such rewrite, and not after it. A rewrite assigns to a chain
on its own just when it assigns to a part of a wrapped expression that is
one, with a `?.` further in than its outermost link; and where it puts in a
chain, some part of what it replaces was one. -/
theorem Rule.assignable_apply (h : rule ∈ Registry.builtin.rules) {source : Text} {n : Node}
    (hn : parse source = .ok n) (hfree : n.Every IsAssignable) :
    ((∀ r ∈ rule.rewrites context (.ofProgram n), ¬ r.AssignsToChain) →
        (rule.apply context (.ofProgram n)).1.program.Every IsAssignable)
      ∧ (∀ before r after, rule.rewrites context (.ofProgram n) = before ++ r :: after →
        (∀ q ∈ before, ¬ q.AssignsToChain) →
        ∃ k w p, Step context.factoryNames k w r p ∧ w.program.Every IsAssignable
          ∧ ((w.after r p).program.Every IsAssignable ↔ ¬ r.AssignsToChain))
      ∧ ∀ r ∈ rule.rewrites context (.ofProgram n),
        (r.new.assignsToChain = true ↔ AssignsThrough context r.site r.new)
          ∧ (r.new.isOptionalChain = true →
            ∃ d : Cursor, d.Below r.site ∧ d.node.isOptionalChain = true) := by
  have hw := parse_sound hn
  rcases Rule.keeps_of_mem h with ⟨k, hk, sweeps, haction, hkeeps⟩ | rfl
  · have hcourse : Course context.factoryNames k (.ofProgram n)
        (rule.rewrites context (.ofProgram n)) (rule.apply context (.ofProgram n)).1 := by
      rw [Rule.rewrites, Rule.apply, haction]
      exact Sweep.course_runSweeps hk hkeeps hw
    have hstep : ∀ r ∈ rule.rewrites context (.ofProgram n), ∀ v p,
        Step context.factoryNames k v r p → v.program.Every IsAssignable →
        ((v.after r p).program.Every IsAssignable ↔ ¬ r.AssignsToChain) := by
      intro r hr v p hstep hv
      rw [Rule.rewrites, haction] at hr
      obtain ⟨s, hs, hnew⟩ := replacement_of_mem_rewritesOfSweeps hr
      exact hstep.every_after_iff hv (hstep.every_new h haction hs hnew hv)
    obtain ⟨hnone, hfirst⟩ := hcourse.every_isAssignable hstep hfree
    refine ⟨hnone, fun before r after heq hno => ⟨k, hfirst before r after heq hno⟩,
      fun r hr => ?_⟩
    obtain ⟨_, haction', s, hs, hnew, k, v, p, hstep, -⟩ :=
      Rule.exists_step_of_mem_rewrites h hw hr
    exact hstep.assignsToChain_iff h haction' hs hnew
  · have hnil : Rules.useStrict.rewrites context (.ofProgram n) = [] := rfl
    rw [hnil]
    refine ⟨fun _ => ?_, fun before r after heq => ?_, List.forall_mem_nil _⟩
    · rw [Rule.apply, show Rules.useStrict.action = .onProgram Rules.relaxModule from rfl]
      simp only [Rules.relaxModule]
      split
      · exact hfree
      · next hp =>
          simp only [Bool.or_eq_true, Bool.not_eq_true', not_or, Bool.not_eq_false] at hp
          exact Rules.isAssignable_dropUseStrict hp.1 hfree
    · simp at heq

end Steps

namespace Rules

/-- An element is hidden, and the chain is read only. -/
theorem showHide_assignable :
    showHide ∈ Registry.builtin.rules
      ∧ ∃ n, parse (Text.ofString "$(el).hide(); x.y = a?.b.c;") = .ok n
        ∧ n.Every IsAssignable
        ∧ (∀ r ∈ showHide.rewrites .default (.ofProgram n), ¬ r.AssignsToChain)
        ∧ (showHide.apply .default (.ofProgram n)).1.program.Every IsAssignable
        ∧ (showHide.apply .default (.ofProgram n)).1.render
          = Text.ofString "el.style.display = \"none\"; x.y = a?.b.c;" := by
  have hrule : showHide ∈ Registry.builtin.rules := by simp [Registry.builtin]
  obtain ⟨n, hn, h⟩ := exists_of_parse_any
    (Text.ofString "$(el).hide(); x.y = a?.b.c;")
    (fun n => n.walk.all (fun m => !m.assignsToChain)
      && (showHide.rewrites .default (.ofProgram n)).all (fun r =>
        !r.new.assignsToChain && !r.new.isOptionalChain)
      && (showHide.apply .default (.ofProgram n)).1.render
        == Text.ofString "el.style.display = \"none\"; x.y = a?.b.c;") (by decide +kernel)
  simp only [Bool.and_eq_true, List.all_eq_true, Bool.not_eq_true', beq_iff_eq] at h
  obtain ⟨⟨hfree, hkept⟩, hrender⟩ := h
  have hno : ∀ r ∈ showHide.rewrites .default (.ofProgram n), ¬ r.AssignsToChain := by
    rintro r hr (hassigns | ⟨hchain, -⟩)
    · cases (hkept r hr).1.symm.trans hassigns
    · cases (hkept r hr).2.symm.trans hchain
  exact ⟨hrule, n, hn, hfree, hno, (Rule.assignable_apply hrule hn hfree).1 hno, hrender⟩

/-- The `?.` stands one link further in than the test for elements looks. -/
theorem showHide_assigns_through_chain :
    showHide ∈ Registry.builtin.rules
      ∧ ∃ n, parse (Text.ofString "$(a?.b.c).hide();") = .ok n
        ∧ n.Every IsAssignable
        ∧ ¬ (showHide.apply .default (.ofProgram n)).1.program.Every IsAssignable
        ∧ (showHide.apply .default (.ofProgram n)).1.render
          = Text.ofString "a?.b.c.style.display = \"none\";" := by
  have hrule : showHide ∈ Registry.builtin.rules := by simp [Registry.builtin]
  obtain ⟨n, hn, h⟩ := exists_of_parse_any (Text.ofString "$(a?.b.c).hide();")
    (fun n => n.walk.all (fun m => !m.assignsToChain)
      && (showHide.apply .default (.ofProgram n)).1.program.walk.any assignsToChain
      && (showHide.apply .default (.ofProgram n)).1.render
        == Text.ofString "a?.b.c.style.display = \"none\";") (by decide +kernel)
  simp only [Bool.and_eq_true, List.all_eq_true, List.any_eq_true, Bool.not_eq_true',
    beq_iff_eq] at h
  obtain ⟨⟨hfree, m, hm, hbad⟩, hrender⟩ := h
  refine ⟨hrule, n, hn, hfree, fun hall => ?_, hrender⟩
  cases hbad.symm.trans (hall m hm)

end Rules

end Codemod
