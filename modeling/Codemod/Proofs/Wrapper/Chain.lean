/-
Chains, from the inside outwards.

`Chained` says how a chain is put together: a place in parentheses, a
plain access of it or a call of such an access, and so on from there.
What may come next either ends the chain (`EndsChain`) or is a step that
has no plain name (`IsSpoilt`): a computed or a private one, an optional
one, or a call of the value itself.

`chain?` climbs the tree in the same way, each step from a place to one
farther out (`chain?_of_chained`), so it reads a chain completely or
fails at the step that spoils it. Main statement:
`chain?_of_ends_or_spoilt`; every place is the start of one of the two.
-/
import Codemod.Analysis.Chain
import Codemod.Proofs.Tree.Position

namespace Codemod.Cursor

-- ============================================================= definitions

/-- The second place is the first one with some of the parentheses around
it. -/
inductive Enclosed : Cursor → Cursor → Prop where
  | refl (c : Cursor) : Enclosed c c
  | parens {c p d : Cursor} : p.is .parenthesizedExpression = true →
    c ∈ p.children → Enclosed p d → Enclosed c d

/-- Behind the dot stands a plain name. -/
def HasName (p : Cursor) (name : Text) : Prop :=
  ∃ q, p.child? .property = some q ∧ q.is .propertyIdentifier = true
    ∧ q.node.text = some name

/-- A plain access `.name` of what stands at `d`. -/
structure Accesses (p d : Cursor) (name : Text) : Prop where
  kind : p.is .memberExpression = true
  object : p.child? .object = some d
  named : p.HasName name
  plain : p.node.isOptional = false

/-- A call of what stands at `d`, optional or not. -/
structure Calls (p d : Cursor) : Prop where
  kind : p.is .callExpression = true
  function : p.child? .function = some d

/-- The steps chained onto a place, the innermost first, and the place
that they lead to. -/
inductive Chained : Cursor → List ChainStep → Cursor → Prop where
  | nil {c d : Cursor} : Enclosed c d → Chained c [] d
  /-- A member that is not called. -/
  | access {c d p e : Cursor} {name : Text} {steps : List ChainStep} :
    Enclosed c d → p.Accesses d name →
    (∀ m g : Cursor, Enclosed p m → ¬ g.Calls m) → Chained p steps e →
    Chained c (⟨name, p, none⟩ :: steps) e
  /-- A member that is called, with parentheses around it or without. -/
  | call {c d p m g e : Cursor} {name : Text} {steps : List ChainStep} :
    Enclosed c d → p.Accesses d name → Enclosed p m → g.Calls m →
    g.node.isOptional = false → Chained g steps e →
    Chained c (⟨name, p, some g⟩ :: steps) e

/-- What is around the place uses it as an object or a function, or only
puts it into parentheses. -/
inductive Extends : Cursor → Cursor → Prop where
  | parens {p e : Cursor} : p.is .parenthesizedExpression = true → Extends p e
  | object {p e : Cursor} :
    p.isAny [.memberExpression, .subscriptExpression] = true →
    p.child? .object = some e → Extends p e
  | function {p e : Cursor} : p.Calls e → Extends p e

/-- No further step is chained onto the place. -/
def EndsChain (e : Cursor) : Prop := ∀ p, e.parent? = some p → ¬ p.Extends e

/-- The next step onto the place is none with a plain name. -/
inductive IsSpoilt : Cursor → Prop where
  /-- `e[…]` -/
  | computed {p e : Cursor} : p.is .subscriptExpression = true →
    p.child? .object = some e → IsSpoilt e
  /-- `e.#name` -/
  | nameless {p e : Cursor} : p.is .memberExpression = true →
    p.child? .object = some e → (∀ name, ¬ p.HasName name) → IsSpoilt e
  /-- `e?.name` -/
  | optional {p e : Cursor} : p.is .memberExpression = true →
    p.child? .object = some e → p.node.isOptional = true → IsSpoilt e
  /-- `e.name?.(…)` -/
  | calledOptionally {p m g e : Cursor} {name : Text} : p.Accesses e name →
    Enclosed p m → g.Calls m → g.node.isOptional = true → IsSpoilt e
  /-- `e(…)` -/
  | called {p e : Cursor} : p.Calls e → IsSpoilt e

variable {n : Node} {c d e g m p : Cursor} {name : Text} {steps : List ChainStep}
  {allowed : List Text}

-- ================================================================== places

theorem mem_children_of_parent? (hc : c.Placed) (h : c.parent? = some p) :
    c ∈ p.children := by
  obtain ⟨m, above⟩ := c
  cases above with
  | nil => cases h
  | cons qi up =>
      obtain ⟨q, i⟩ := qi
      obtain rfl : (⟨q, up⟩ : Cursor) = p := Option.some.inj h
      exact mem_children.2 ⟨i, hc.1, rfl⟩

/-- What a place of the tree stands in is a place of the tree. -/
theorem mem_walk_top_of_parent? (hc : c ∈ (top n).walk)
    (h : c.parent? = some p) : p ∈ (top n).walk := by
  obtain ⟨hp, hr⟩ := mem_walk_top.1 hc
  have hmem := mem_children_of_parent? hp h
  have ha : p ∈ c.ancestors := by
    rw [ancestors_of_mem_children hmem]
    exact List.mem_cons_self
  obtain ⟨hpp, hpr, -⟩ := hp.of_mem_ancestors ha
  exact mem_walk_top.2 ⟨hpp, hpr.trans hr⟩

/-- In an identified tree a place is the child in a role just when the
child in that role has its identity. -/
theorem hasChild_iff (hn : n.Identified) (hc : c ∈ (top n).walk)
    (hp : c.parent? = some p) {r : Role} :
    p.hasChild r c = true ↔ p.child? r = some c := by
  unfold hasChild
  cases he : p.child? r with
  | none => simp
  | some e =>
      have hpw := mem_walk_top_of_parent? hc hp
      have hew := mem_walk_of_mem_children hpw (mem_children_of_child? he)
      constructor
      · intro hsame
        rw [eq_of_same hn hew hc hsame]
      · intro heq
        obtain rfl := Option.some.inj heq
        exact beq_self_eq_true _

theorem propertyName?_eq_some_iff (hk : p.is .memberExpression = true) :
    p.node.propertyName? = some name ↔ p.HasName name := by
  have hchild : (p.child? .property).map (·.node) = p.node.child? .property := by
    rw [child?, Node.child?, ← map_node_children, List.find?_map]
    rfl
  have hk' : p.node.is .memberExpression = true := hk
  unfold Node.propertyName? HasName
  rw [← hchild, hk']
  cases p.child? .property with
  | none => simp
  | some q =>
      simp only [Bool.not_true, Bool.false_eq_true, if_false, Option.map_some,
        Option.some.injEq, exists_eq_left']
      cases hq : q.is .propertyIdentifier with
      | true =>
          rw [show q.node.is .propertyIdentifier = true from hq]
          simp
      | false =>
          rw [show q.node.is .propertyIdentifier = false from hq]
          simp

theorem Accesses.parent? (h : p.Accesses d name) : d.parent? = some p :=
  parent?_of_mem_children (mem_children_of_child? h.object)

theorem Calls.parent? (h : p.Calls d) : d.parent? = some p :=
  parent?_of_mem_children (mem_children_of_child? h.function)

-- ============================================================= parentheses

theorem climb_of_parent? (h : ∀ p, c.parent? = some p →
    p.is .parenthesizedExpression = false) : c.climb = c := by
  obtain ⟨m, above⟩ := c
  cases above with
  | nil => rfl
  | cons qi up =>
      obtain ⟨q, i⟩ := qi
      have hq : q.is .parenthesizedExpression = false := h ⟨q, up⟩ rfl
      rw [climb, climbIn, hq]
      rfl

theorem climb_of_parens (hp : p.is .parenthesizedExpression = true)
    (hc : c ∈ p.children) : c.climb = p.climb := by
  obtain ⟨i, -, ha⟩ := mem_children.1 hc
  have hp' : p.node.is .parenthesizedExpression = true := hp
  rw [climb, ha, climbIn, if_pos hp']
  rfl

/-- Climbing goes on from wherever the parentheses have been left. -/
theorem Enclosed.climb (h : Enclosed c d) : c.climb = d.climb := by
  induction h with
  | refl => rfl
  | parens hp hc _ ih => rw [climb_of_parens hp hc, ih]

/-- Outside its parentheses a place stands in none. -/
theorem Enclosed.climb_eq (h : Enclosed c d) (hp : d.parent? = some p)
    (hk : p.is .parenthesizedExpression = false) : c.climb = d := by
  rw [h.climb, climb_of_parent? fun q hq => ?_]
  obtain rfl := Option.some.inj (hp.symm.trans hq)
  exact hk

theorem enclosed_climb (hc : c.Placed) : Enclosed c c.climb := by
  obtain ⟨m, above⟩ := c
  induction above generalizing m with
  | nil => exact .refl _
  | cons qi up ih =>
      obtain ⟨q, i⟩ := qi
      rw [Cursor.climb, climbIn]
      split
      · next hq =>
          exact .parens (p := ⟨q, up⟩) hq (mem_children.2 ⟨i, hc.1, rfl⟩) (ih q hc.2)
      · exact .refl _

theorem parent?_climb (h : c.climb.parent? = some p) :
    p.is .parenthesizedExpression = false := by
  obtain ⟨m, above⟩ := c
  induction above generalizing m with
  | nil => cases h
  | cons qi up ih =>
      obtain ⟨q, i⟩ := qi
      rw [climb, climbIn] at h
      split at h
      · exact ih q h
      · next hq =>
          obtain rfl := Option.some.inj h
          exact Bool.eq_false_iff.2 hq

theorem length_above_of_mem_children (hc : c ∈ p.children) :
    c.above.length = p.above.length + 1 := by
  obtain ⟨i, -, ha⟩ := mem_children.1 hc
  rw [ha, List.length_cons]

theorem Enclosed.length_above_le (h : Enclosed c d) :
    d.above.length ≤ c.above.length := by
  induction h with
  | refl => exact Nat.le_refl _
  | parens _ hc _ ih =>
      have := length_above_of_mem_children hc
      omega

theorem Enclosed.mem_walk (h : Enclosed c d) (hc : c ∈ (top n).walk) :
    d ∈ (top n).walk := by
  induction h with
  | refl => exact hc
  | parens _ hmem _ ih =>
      exact ih (mem_walk_top_of_parent? hc (parent?_of_mem_children hmem))

-- ================================================================ one step

theorem Accesses.climb_eq (h : p.Accesses d name) (hc : Enclosed c d) :
    c.climb = d :=
  hc.climb_eq h.parent? (Node.is_false_of_kind (Node.is_iff.1 h.kind) (by decide))

theorem Calls.climb_eq (h : p.Calls d) (hc : Enclosed c d) : c.climb = d :=
  hc.climb_eq h.parent? (Node.is_false_of_kind (Node.is_iff.1 h.kind) (by decide))

/-- What the search does at an access: it takes the call of it along, or
none. -/
theorem chainWithin_accesses (h : p.Accesses d name) (fuel : Nat) :
    chainWithin (fuel + 1) d
      = match p.climb.parent?.filter fun g =>
          g.is .callExpression && g.hasChild .function p.climb with
        | some g =>
          if g.node.isOptional then none
          else (chainWithin fuel g.climb).map (⟨name, p, some g⟩ :: ·)
        | none => (chainWithin fuel p.climb).map (⟨name, p, none⟩ :: ·) := by
  have hno : ∀ s, Symbol.memberExpression ≠ s → p.is s = false := fun s hs =>
    Node.is_false_of_kind (Node.is_iff.1 h.kind) hs
  have hchild : p.hasChild .object d = true := by
    rw [hasChild, h.object]
    exact beq_self_eq_true _
  rw [chainWithin, h.parent?]
  cases hcall : p.climb.parent?.filter (fun g =>
      g.is .callExpression && g.hasChild .function p.climb) <;>
    simp only [hcall, hno .subscriptExpression (by decide),
      hno .callExpression (by decide), h.kind, hchild,
      (propertyName?_eq_some_iff h.kind).2 h.named, h.plain, Bool.false_and,
      Bool.false_eq_true, if_false, Bool.not_true, Bool.or_self]

theorem chainWithin_access (hn : n.Identified) (hp : p ∈ (top n).walk)
    (h : p.Accesses d name)
    (hno : ∀ m g : Cursor, Enclosed p m → ¬ g.Calls m) (fuel : Nat) :
    chainWithin (fuel + 1) d
      = (chainWithin fuel p.climb).map (⟨name, p, none⟩ :: ·) := by
  have henc := enclosed_climb (mem_walk_top.1 hp).1
  have hnone : p.climb.parent?.filter (fun g =>
      g.is .callExpression && g.hasChild .function p.climb) = none := by
    rw [Option.filter_eq_none_iff]
    intro g hg hcall
    obtain ⟨hk, hf⟩ := Bool.and_eq_true_iff.1 hcall
    exact hno _ g henc ⟨hk, (hasChild_iff hn (henc.mem_walk hp) hg).1 hf⟩
  rw [chainWithin_accesses h, hnone]

theorem chainWithin_call (h : p.Accesses d name) (hm : Enclosed p m)
    (hg : g.Calls m) (fuel : Nat) :
    chainWithin (fuel + 1) d = if g.node.isOptional then none
      else (chainWithin fuel g.climb).map (⟨name, p, some g⟩ :: ·) := by
  have hchild : g.hasChild .function m = true := by
    rw [hasChild, hg.function]
    exact beq_self_eq_true _
  have hsome : m.parent?.filter (fun g =>
      g.is .callExpression && g.hasChild .function m) = some g := by
    rw [hg.parent?, Option.filter_some, hg.kind, hchild]
    rfl
  rw [chainWithin_accesses h, hg.climb_eq hm, hsome]

theorem chainWithin_of_ends (hn : n.Identified) (he : e ∈ (top n).walk)
    (h : e.EndsChain) (fuel : Nat) : chainWithin (fuel + 1) e = some [] := by
  rw [chainWithin]
  cases hp : e.parent? with
  | none => rfl
  | some p =>
      have hno := h p hp
      have hobject : ∀ s ∈ [Symbol.memberExpression, .subscriptExpression],
          (p.is s && p.hasChild .object e) = false := by
        intro s hs
        rw [Bool.eq_false_iff]
        intro hboth
        obtain ⟨hk, hchild⟩ := Bool.and_eq_true_iff.1 hboth
        exact hno (.object (Node.isAny_iff.2 ⟨s, hs, Node.is_iff.1 hk⟩)
          ((hasChild_iff hn he hp).1 hchild))
      have hcall : (p.is .callExpression && p.hasChild .function e) = false := by
        rw [Bool.eq_false_iff]
        intro hboth
        obtain ⟨hk, hchild⟩ := Bool.and_eq_true_iff.1 hboth
        exact hno (.function ⟨hk, (hasChild_iff hn he hp).1 hchild⟩)
      have hmember : (!p.is .memberExpression || !p.hasChild .object e) = true := by
        rw [← Bool.not_and, hobject _ List.mem_cons_self]
        rfl
      simp only [hobject .subscriptExpression (by decide), hcall, hmember,
        Bool.false_eq_true, if_false, if_true]

theorem IsSpoilt.climb (h : e.IsSpoilt) : e.climb = e := by
  have key : ∀ {p : Cursor} {r : Role} {s : Symbol}, p.child? r = some e →
      p.is s = true → s ≠ .parenthesizedExpression → e.climb = e := by
    intro p r s hc hk hs
    have hp := parent?_of_mem_children (mem_children_of_child? hc)
    exact (Enclosed.refl e).climb_eq hp (Node.is_false_of_kind (Node.is_iff.1 hk) hs)
  cases h with
  | computed hk hc => exact key hc hk (by decide)
  | nameless hk hc _ => exact key hc hk (by decide)
  | optional hk hc _ => exact key hc hk (by decide)
  | calledOptionally ha _ _ _ => exact key ha.object ha.kind (by decide)
  | called hg => exact key hg.function hg.kind (by decide)

theorem chainWithin_of_spoilt (h : e.IsSpoilt) (fuel : Nat) :
    chainWithin (fuel + 1) e = none := by
  have hself : ∀ {p : Cursor} {r : Role}, p.child? r = some e →
      e.parent? = some p ∧ p.hasChild r e = true := by
    intro p r hc
    refine ⟨parent?_of_mem_children (mem_children_of_child? hc), ?_⟩
    rw [hasChild, hc]
    exact beq_self_eq_true _
  have hno : ∀ {p : Cursor}, p.is .memberExpression = true →
      ∀ s, Symbol.memberExpression ≠ s → p.is s = false := fun hk s hs =>
    Node.is_false_of_kind (Node.is_iff.1 hk) hs
  cases h with
  | computed hk hc =>
      obtain ⟨hp, hchild⟩ := hself hc
      rw [chainWithin, hp]
      simp [hk, hchild]
  | @nameless p _ hk hc hname =>
      obtain ⟨hp, hchild⟩ := hself hc
      have hnone : p.node.propertyName? = none := by
        cases hpn : p.node.propertyName? with
        | none => rfl
        | some name => exact absurd ((propertyName?_eq_some_iff hk).1 hpn) (hname name)
      rw [chainWithin, hp]
      simp [hk, hchild, hnone, hno hk .subscriptExpression (by decide),
        hno hk .callExpression (by decide)]
  | @optional p _ hk hc hopt =>
      obtain ⟨hp, hchild⟩ := hself hc
      rw [chainWithin, hp]
      simp only [hk, hchild, hopt, hno hk .subscriptExpression (by decide),
        hno hk .callExpression (by decide), Bool.false_and, Bool.false_eq_true,
        if_false, Bool.not_true, Bool.or_self, if_true]
      cases p.node.propertyName? <;> rfl
  | calledOptionally ha hm hg hopt => rw [chainWithin_call ha hm hg, hopt, if_pos rfl]
  | called hg =>
      obtain ⟨hp, hchild⟩ := hself hg.function
      have hsub := Node.is_false_of_kind (t := .subscriptExpression)
        (Node.is_iff.1 hg.kind) (by decide)
      rw [chainWithin, hp]
      simp [is, hsub, show Node.is _ .callExpression = true from hg.kind, hchild]

-- ============================================================== whole chain

theorem Accesses.length_above (h : p.Accesses d name) :
    d.above.length = p.above.length + 1 :=
  length_above_of_mem_children (mem_children_of_child? h.object)

theorem Calls.length_above (h : p.Calls d) :
    d.above.length = p.above.length + 1 :=
  length_above_of_mem_children (mem_children_of_child? h.function)

/-- Every step leads outwards. -/
theorem Chained.length_le (h : Chained c steps e) :
    steps.length + e.above.length ≤ c.above.length := by
  induction h with
  | nil hd => simpa using hd.length_above_le
  | access hd hp _ _ ih =>
      have := hd.length_above_le
      have := hp.length_above
      simp only [List.length_cons]
      omega
  | call hd hp hm hg _ _ ih =>
      have := hd.length_above_le
      have := hp.length_above
      have := hm.length_above_le
      have := hg.length_above
      simp only [List.length_cons]
      omega

theorem Chained.mem_walk (h : Chained c steps e) (hc : c ∈ (top n).walk) :
    e ∈ (top n).walk := by
  induction h with
  | nil hd => exact hd.mem_walk hc
  | access hd hp _ _ ih =>
      exact ih (mem_walk_top_of_parent? (hd.mem_walk hc) hp.parent?)
  | call hd hp hm hg _ _ ih =>
      have hpw := mem_walk_top_of_parent? (hd.mem_walk hc) hp.parent?
      exact ih (mem_walk_top_of_parent? (hm.mem_walk hpw) hg.parent?)

/-- The search reads the steps of a chain one by one. -/
theorem chainWithin_of_chained (hn : n.Identified) (hc : c ∈ (top n).walk)
    (h : Chained c steps e) (fuel : Nat) :
    chainWithin (fuel + steps.length) c.climb
      = (chainWithin fuel e.climb).map (steps ++ ·) := by
  induction h with
  | nil hd => simp [hd.climb]
  | @access c d p e name steps hd hp hno _ ih =>
      have hpw := mem_walk_top_of_parent? (hd.mem_walk hc) hp.parent?
      rw [hp.climb_eq hd, List.length_cons, ← Nat.add_assoc,
        chainWithin_access hn hpw hp hno, ih hpw, Option.map_map]
      rfl
  | @call c d p m g e name steps hd hp hm hg hopt _ ih =>
      have hpw := mem_walk_top_of_parent? (hd.mem_walk hc) hp.parent?
      have hgw := mem_walk_top_of_parent? (hm.mem_walk hpw) hg.parent?
      rw [hp.climb_eq hd, List.length_cons, ← Nat.add_assoc,
        chainWithin_call hp hm hg, hopt, if_neg Bool.false_ne_true, ih hgw,
        Option.map_map]
      rfl

/-- Up to a place the chain is read; from there it is read on. -/
theorem chain?_of_chained (hn : n.Identified) (hc : c ∈ (top n).walk)
    (h : Chained c steps e) :
    ∃ fuel, c.chain? = (chainWithin (fuel + 1) e.climb).map (steps ++ ·) := by
  have hle := h.length_le
  refine ⟨c.above.length - steps.length, ?_⟩
  rw [← chainWithin_of_chained hn hc h, chain?]
  congr 1
  omega

/-- A chain ends, or some step spoils it. -/
theorem exists_chained (hc : c ∈ (top n).walk) :
    ∃ steps e, Chained c steps e ∧ (e.EndsChain ∨ e.IsSpoilt) := by
  induction hlen : c.above.length using Nat.strongRecOn generalizing c with
  | ind k ih =>
      have hd := enclosed_climb (mem_walk_top.1 hc).1
      have hdw := hd.mem_walk hc
      by_cases hends : c.climb.EndsChain
      · exact ⟨[], _, .nil hd, Or.inl hends⟩
      simp only [EndsChain, not_forall, not_not] at hends
      obtain ⟨p, hp, hext⟩ := hends
      cases hext with
      | parens hk => rw [parent?_climb hp] at hk; cases hk
      | function hg => exact ⟨[], _, .nil hd, Or.inr (.called hg)⟩
      | object hk ho =>
          obtain ⟨s, hs, hkind⟩ := Node.isAny_iff.1 hk
          simp only [List.mem_cons, List.not_mem_nil, or_false] at hs
          obtain rfl | rfl := hs
          case inr => exact ⟨[], _, .nil hd, Or.inr (.computed (Node.is_iff.2 hkind) ho)⟩
          have hk : p.is .memberExpression = true := Node.is_iff.2 hkind
          by_cases hname : ∃ name, p.HasName name
          case neg => exact ⟨[], _, .nil hd, Or.inr (.nameless hk ho (by simpa using hname))⟩
          obtain ⟨name, hname⟩ := hname
          cases hopt : p.node.isOptional with
          | true => exact ⟨[], _, .nil hd, Or.inr (.optional hk ho hopt)⟩
          | false =>
              have ha : p.Accesses c.climb name := ⟨hk, ho, hname, hopt⟩
              have hpw := mem_walk_top_of_parent? hdw hp
              have hlt := ha.length_above
              have hle := hd.length_above_le
              by_cases hcall : ∃ m g : Cursor, Enclosed p m ∧ g.Calls m
              · obtain ⟨m, g, hm, hg⟩ := hcall
                have hgw := mem_walk_top_of_parent? (hm.mem_walk hpw) hg.parent?
                cases hgopt : g.node.isOptional with
                | true =>
                    exact ⟨[], _, .nil hd, Or.inr (.calledOptionally ha hm hg hgopt)⟩
                | false =>
                    have := hm.length_above_le
                    have := hg.length_above
                    obtain ⟨steps, e, hch, he⟩ :=
                      ih g.above.length (by omega) hgw rfl
                    exact ⟨_, e, .call hd ha hm hg hgopt hch, he⟩
              · obtain ⟨steps, e, hch, he⟩ := ih p.above.length (by omega) hpw rfl
                simp only [not_exists, not_and] at hcall
                exact ⟨_, e, .access hd ha hcall hch, he⟩

/-- A wrapper that may give way to its element is, parentheses apart, the
object of a member access. -/
theorem exists_member_of_isChainFoldable {allowed : List Text}
    (h : c.isChainFoldable allowed = true) :
    ∃ p, c.climb.parent? = some p ∧ p.is .memberExpression = true := by
  have hsteps : ∃ s rest, c.chain? = some (s :: rest) := by
    unfold isChainFoldable at h
    split at h
    · cases h
    · next steps hne hsteps =>
        cases steps with
        | nil => exact absurd rfl hne
        | cons s rest => exact ⟨s, rest, hsteps⟩
    · cases h
  obtain ⟨s, rest, hsteps⟩ := hsteps
  rw [chain?, chainWithin] at hsteps
  cases hp : c.climb.parent? with
  | none => simp [hp] at hsteps
  | some p =>
      refine ⟨p, rfl, ?_⟩
      by_contra hk
      rw [Bool.not_eq_true] at hk
      simp only [hp, hk, Bool.not_false, Bool.true_or, if_true] at hsteps
      split at hsteps
      · cases hsteps
      · split at hsteps
        · cases hsteps
        · cases hsteps

/-- The chain onto a call. Where the steps end, they are what is read, the
last of them is the anchor, and the chain is allowed just when each name
is. Where a step has no plain name, nothing is read and nothing allowed.
One of the two is always so. -/
theorem chain?_of_ends_or_spoilt (hn : n.Identified) (hc : c ∈ (top n).walk)
    (hk : c.is .callExpression = true) :
    (∀ steps e, Chained c steps e → e.EndsChain →
        c.chain? = some steps
          ∧ c.chainAnchor = (steps.getLast?.map ChainStep.node).getD c
          ∧ ∀ allowed, c.isChainAllowed allowed = true
            ↔ ∀ s ∈ steps, s.name ∈ allowed)
      ∧ (∀ steps e, Chained c steps e → e.IsSpoilt →
        c.chain? = none ∧ ∀ allowed, c.isChainAllowed allowed = false
          ∧ c.isChainFoldable allowed = false)
      ∧ ∃ steps e, Chained c steps e ∧ (e.EndsChain ∨ e.IsSpoilt) := by
  refine ⟨fun steps e h he => ?_, fun steps e h he => ?_, exists_chained hc⟩
  · obtain ⟨fuel, hfuel⟩ := chain?_of_chained hn hc h
    have hclimb : e.climb = e := climb_of_parent? fun p hp => by
      cases hparens : p.is .parenthesizedExpression with
      | false => rfl
      | true => exact absurd (.parens hparens) (he p hp)
    have hchain : c.chain? = some steps := by
      rw [hfuel, hclimb, chainWithin_of_ends hn (h.mem_walk hc) he]
      simp
    refine ⟨hchain, ?_, fun allowed => ?_⟩
    · rw [chainAnchor, hchain]
      cases hlast : steps.getLast? <;> simp [hlast]
    · simp [isChainAllowed, hk, hchain]
  · obtain ⟨fuel, hfuel⟩ := chain?_of_chained hn hc h
    have hchain : c.chain? = none := by
      rw [hfuel, he.climb, chainWithin_of_spoilt he]
      rfl
    refine ⟨hchain, fun allowed => ⟨?_, ?_⟩⟩
    · simp [isChainAllowed, hchain]
    · simp [isChainFoldable, hchain]

theorem endsChain_of_kind {s : Symbol} (hp : e.parent? = some p)
    (hk : p.node.kind = .symbol s)
    (hs : s ∉ [Symbol.parenthesizedExpression, .memberExpression,
      .subscriptExpression, .callExpression]) : e.EndsChain := by
  intro q hq hext
  obtain rfl := Option.some.inj (hp.symm.trans hq)
  have hno : ∀ t, p.is t = true → s = t := fun t ht =>
    Kind.symbol.inj (hk.symm.trans (Node.is_iff.1 ht))
  cases hext with
  | parens h => exact hs (by simp [hno _ h])
  | object h _ =>
      obtain ⟨t, ht, hkt⟩ := Node.isAny_iff.1 h
      obtain rfl := hno t (Node.is_iff.2 hkt)
      simp only [List.mem_cons, List.not_mem_nil, or_false] at ht hs
      tauto
  | function h => exact hs (by simp [hno _ h.kind])

/-- A member that the chain ends with is not called. -/
theorem EndsChain.not_called (h : e.EndsChain) (hm : Enclosed e m) : ¬ g.Calls m := by
  intro hg
  cases hm with
  | refl => exact h g hg.parent? (.function hg)
  | parens hp hmem _ => exact h _ (parent?_of_mem_children hmem) (.parens hp)

/-- The test that a node is a plain access of the name. -/
def isPlainAccess (p : Cursor) (name : Text) : Bool :=
  p.is .memberExpression && !p.node.isOptional
    && (p.child? .property).any fun q =>
      q.is .propertyIdentifier && q.node.text == some name

theorem accesses_of_isPlainAccess (h : p.isPlainAccess name = true)
    (hd : p.child? .object = some d) : p.Accesses d name := by
  simp only [isPlainAccess, Bool.and_eq_true, Bool.not_eq_true', Option.any_eq_true,
    beq_iff_eq] at h
  exact ⟨h.1.1, hd, h.2, h.1.2⟩

/-- A call and a member behind it, both in parentheses. -/
theorem chain?_reads_show_and_length :
    ∃ n c p q r, parse (Text.ofString "(($(x)).show(1)).length;") = .ok n
      ∧ c ∈ (top n).walk ∧ c.code = Text.ofString "$(x)"
      ∧ c.chain? = some [⟨"show", p, some q⟩, ⟨"length", r, none⟩]
      ∧ c.chainAnchor = r ∧ c.isChainAllowed ["length", "show"] = true := by
  have h : holdsAt (Text.ofString "(($(x)).show(1)).length;") [0, 0] (fun r =>
      r.isPlainAccess "length" && r.parent?.any (·.is .expressionStatement)
        && (r.child? .object).any fun o => o.is .parenthesizedExpression
        && o.children.any fun q => q.is .callExpression && !q.node.isOptional
        && (q.child? .function).any fun p => p.isPlainAccess "show"
        && (p.child? .object).any fun o => o.is .parenthesizedExpression
        && o.children.any fun c => c.is .callExpression
          && c.code == Text.ofString "$(x)") = true := by decide +kernel
  obtain ⟨n, r, hn, hr, ht⟩ := exists_of_holdsAt h
  simp only [Bool.and_eq_true, Bool.not_eq_true', Option.any_eq_true,
    List.any_eq_true, beq_iff_eq] at ht
  obtain ⟨⟨hlength, s, hs, hsk⟩, o, ho, hok, q, hq, ⟨⟨hqk, hqopt⟩, p, hp, hshow,
    o', ho', hok', c, hc, hck, hcode⟩⟩ := ht
  have hend : r.EndsChain := endsChain_of_kind hs (Node.is_iff.1 hsk) (by decide)
  have hc' : Enclosed c o' := .parens hok' hc (.refl _)
  have hq' : Enclosed q o := .parens hok hq (.refl _)
  have hwalk : c ∈ (top n).walk := by
    refine mem_walk_trans hr (mem_walk_trans (mem_walk_of_mem_children
      (self_mem_walk r) (mem_children_of_child? ho)) ?_)
    refine mem_walk_iff.2 (Or.inr ⟨q, hq, mem_walk_iff.2 (Or.inr
      ⟨p, mem_children_of_child? hp, mem_walk_iff.2 (Or.inr
        ⟨o', mem_children_of_child? ho', mem_walk_of_mem_children (self_mem_walk o') hc⟩)⟩)⟩)
  have hchain : Chained c [⟨"show", p, some q⟩, ⟨"length", r, none⟩] r :=
    .call hc' (accesses_of_isPlainAccess hshow ho') (.refl p) ⟨hqk, hp⟩ hqopt
      (.access hq' (accesses_of_isPlainAccess hlength ho)
        (fun _ _ hm => hend.not_called hm) (.nil (.refl r)))
  obtain ⟨hread, hanchor, hallowed⟩ :=
    (chain?_of_ends_or_spoilt (parse_identified hn) hwalk hck).1 _ r hchain hend
  exact ⟨n, c, p, q, r, hn, hwalk, hcode, hread, hanchor, (hallowed _).2 (by simp)⟩

end Codemod.Cursor
