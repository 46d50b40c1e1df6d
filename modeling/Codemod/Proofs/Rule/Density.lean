/-
What is written through a dense array.

A name is taken for a dense array if each of its uses reads it, and of a use
no more is looked at than the construct next to it, parentheses left aside
(`isReadingUse`). The language writes through an array wherever an
assignment, an update, the head of a loop or a `delete` changes a place in
it: the place is found through parentheses and patterns (`IsTarget`), and it
is in the array when it is got at by accesses only (`Within`).

Uses of all kinds but one are refused when something is written through
them. A use that reads a member is looked at for an assignment or update of
that member, and for nothing else: in parentheses or a pattern, in the head
of a loop, behind `delete`, and where a place inside the member is changed,
a write goes unnoticed (`IsWrittenBehind`).

Main statement: `Cursor.isArray_writtenThrough_iff`.
-/
import Codemod.Proofs.Wrapper.Chain
import Codemod.Proofs.Wrapper.Injection

namespace Codemod

namespace Cursor

variable {c d m p t x : Cursor} {n : Node}

-- ================================================================ places

/-- What a node deletes. -/
def deleted? (v : Cursor) : Option Cursor :=
  if v.is .unaryExpression && v.hasOperator ["delete"] then v.child? .argument else none

/-- The place is changed: something assigns to it or deletes it, or hands the
assignment on to it through parentheses or a pattern. -/
inductive IsTarget : Cursor → Prop
  | assigned {v t : Cursor} : v.assigned? = some t → IsTarget t
  | deleted {v t : Cursor} : v.deleted? = some t → IsTarget t
  | parens {t d : Cursor} : IsTarget t → t.is .parenthesizedExpression = true →
    d ∈ t.operands → IsTarget d
  | part {t d : Cursor} : IsTarget t →
    t.isAny [.objectPattern, .arrayPattern, .restPattern] = true → d ∈ t.operands → IsTarget d
  | value {t d : Cursor} : IsTarget t → t.is .pairPattern = true → d ∈ t.operands →
    d.node.role = some .value → IsTarget d
  | default {t d : Cursor} : IsTarget t →
    t.isAny [.assignmentPattern, .objectAssignmentPattern] = true → d ∈ t.operands →
    d.node.role = some .left → IsTarget d

/-- The second is the first, or a place in it: what is got at from the first
by accesses to members, in any parentheses. -/
inductive Within (x : Cursor) : Cursor → Prop
  | self : Within x x
  | parens {d t : Cursor} : Within x d → t.is .parenthesizedExpression = true →
    d ∈ t.children → Within x t
  | object {d t : Cursor} : Within x d →
    t.isAny [.memberExpression, .subscriptExpression] = true → t.child? .object = some d →
    Within x t

/-- Something is written to the object, or to a place in it. -/
def IsWrittenThrough (x : Cursor) : Prop := ∃ t, Within x t ∧ IsTarget t

/-- Something is written behind a member that may be read: through the
member, and by other means than an assignment or update of it as it
stands. -/
def IsWrittenBehind (x : Cursor) : Prop :=
  ∃ m name, m.is .memberExpression = true ∧ m.child? .object = some x.climb
    ∧ m.node.propertyName? = some name ∧ name.isOneOf readingMembers = true
    ∧ (∀ v : Cursor, v.isAny [.assignmentExpression, .augmentedAssignmentExpression,
        .updateExpression] = true → v.assigned? ≠ some m)
    ∧ m.IsWrittenThrough

/-- A use of the name that the scope binds. -/
structure IsUseOf (x scope : Cursor) (name : Text) : Prop where
  kind : x.isAny [.identifier, .shorthandPropertyIdentifier] = true
  spelled : x.code = name
  bound : x.bindingScope? name = some scope

-- =============================================================== targets

theorem assigned?_eq_some (h : p.assigned? = some d) : d.parent? = some p
    ∧ (p.isAny [.assignmentExpression, .augmentedAssignmentExpression,
        .updateExpression] = true
      ∨ (p.is .forInStatement = true ∧ p.child? .left = some d)) := by
  have hparent : ∀ r, p.child? r = some d → d.parent? = some p := fun r hr =>
    parent?_of_mem_children (mem_children_of_child? hr)
  unfold assigned? at h
  split at h
  · next hk =>
    refine ⟨hparent _ h, Or.inl ?_⟩
    obtain ⟨s, hs, hk⟩ := Node.isAny_iff.1 hk
    exact Node.isAny_iff.2 ⟨s, List.mem_append_left [_] hs, hk⟩
  split at h
  · next hk =>
    exact ⟨hparent _ h, Or.inl (Node.isAny_iff.2 ⟨_, by simp, Node.is_iff.1 hk⟩)⟩
  split at h
  · next hk =>
    split at h
    · cases h
    · exact ⟨hparent _ h, Or.inr ⟨hk, h⟩⟩
  · cases h

theorem deleted?_eq_some (h : p.deleted? = some d) :
    d.parent? = some p ∧ p.is .unaryExpression = true := by
  unfold deleted? at h
  split at h
  · next hk =>
    rw [Bool.and_eq_true] at hk
    exact ⟨parent?_of_mem_children (mem_children_of_child? h), hk.1⟩
  · cases h

/-- The constructs that change a place next to them, or hand the change on,
save for parentheses and the heads of loops. -/
def changingSymbols : List Symbol := [
  .assignmentExpression, .augmentedAssignmentExpression, .updateExpression, .unaryExpression,
  .objectPattern, .arrayPattern, .restPattern, .pairPattern, .assignmentPattern,
  .objectAssignmentPattern]

/-- Where the change of a place comes from. -/
theorem IsTarget.parent? (h : IsTarget d) : ∃ p, d.parent? = some p
    ∧ (p.isAny changingSymbols = true ∨ (p.is .parenthesizedExpression = true ∧ IsTarget p)
      ∨ (p.is .forInStatement = true ∧ p.child? .left = some d)) := by
  have hparent : ∀ t : Cursor, d ∈ t.operands → d.parent? = some t := fun t hd =>
    parent?_of_mem_children (mem_children_of_mem_operands hd)
  have hany : ∀ {t : Cursor} {ss : List Symbol}, t.isAny ss = true → ss ⊆ changingSymbols →
      t.isAny changingSymbols = true := fun h hsub => by
    obtain ⟨s, hs, hk⟩ := Node.isAny_iff.1 h
    exact Node.isAny_iff.2 ⟨s, hsub hs, hk⟩
  have his : ∀ {t : Cursor} {s : Symbol}, t.is s = true → s ∈ changingSymbols →
      t.isAny changingSymbols = true := fun h hs =>
    Node.isAny_iff.2 ⟨_, hs, Node.is_iff.1 h⟩
  cases h with
  | @assigned v _ hv =>
    obtain ⟨hp, hk | hfor⟩ := assigned?_eq_some hv
    · exact ⟨v, hp, Or.inl (hany hk (by decide))⟩
    · exact ⟨v, hp, Or.inr (Or.inr hfor)⟩
  | @deleted v _ hv =>
    obtain ⟨hp, hk⟩ := deleted?_eq_some hv
    exact ⟨v, hp, Or.inl (his hk (by decide))⟩
  | @parens t _ ht hk hd => exact ⟨t, hparent t hd, Or.inr (Or.inl ⟨hk, ht⟩)⟩
  | @part t _ _ hk hd => exact ⟨t, hparent t hd, Or.inl (hany hk (by decide))⟩
  | @value t _ _ hk hd _ => exact ⟨t, hparent t hd, Or.inl (his hk (by decide))⟩
  | @default t _ _ hk hd _ => exact ⟨t, hparent t hd, Or.inl (hany hk (by decide))⟩

/-- No construct of another kind changes the place next to it. -/
theorem not_isTarget_of_parent? {s : Symbol} (hp : d.parent? = some p) (hk : p.is s = true)
    (hs : s ∉ changingSymbols) (hparens : s ≠ .parenthesizedExpression)
    (hfor : s ≠ .forInStatement) : ¬ IsTarget d := by
  intro h
  obtain ⟨q, hq, hcases⟩ := h.parent?
  obtain rfl := Option.some.inj (hp.symm.trans hq)
  have hkind := Node.is_iff.1 hk
  rcases hcases with hany | ⟨hparen, -⟩ | ⟨hloop, -⟩
  · exact absurd hany (Node.not_isAny_of_is hk hs)
  · rw [is, Node.is_false_of_kind hkind hparens] at hparen
    cases hparen
  · rw [is, Node.is_false_of_kind hkind hfor] at hloop
    cases hloop

/-- A change of a place in parentheses is one of the parentheses. -/
theorem IsTarget.of_enclosed (h : Enclosed d t) (hd : IsTarget d) : IsTarget t := by
  induction h with
  | refl => exact hd
  | @parens d p t hk hmem _ ih =>
    refine ih ?_
    obtain ⟨q, hq, hcases⟩ := hd.parent?
    obtain rfl := Option.some.inj ((parent?_of_mem_children hmem).symm.trans hq)
    rcases hcases with hany | ⟨-, htarget⟩ | ⟨hloop, -⟩
    · exact absurd hany (Node.not_isAny_of_is hk (by decide))
    · exact htarget
    · rw [is, Node.is_false_of_kind (Node.is_iff.1 hk) (by decide)] at hloop
      cases hloop

-- ============================================================== accesses

theorem Enclosed.snoc (h : Enclosed c d) (hk : t.is .parenthesizedExpression = true)
    (hd : d ∈ t.children) : Enclosed c t := by
  induction h with
  | refl => exact .parens hk hd (.refl _)
  | parens hp hc _ ih => exact .parens hp hc (ih hd)

theorem Within.trans (h : Within x m) (ht : Within m t) : Within x t := by
  induction ht with
  | self => exact h
  | parens _ hk hd ih => exact .parens ih hk hd
  | object _ hk hd ih => exact .object ih hk hd

theorem Within.of_enclosed (h : Enclosed d t) : Within d t := by
  induction h with
  | refl => exact .self
  | parens hk hc _ ih => exact (Within.parens .self hk hc).trans ih

/-- A place in an object is the object in parentheses, or it is got at by an
access to it. -/
theorem Within.enclosed_or (h : Within x t) : Enclosed x t
    ∨ ∃ m, m.isAny [.memberExpression, .subscriptExpression] = true
      ∧ m.child? .object = some x.climb ∧ Within m t := by
  induction h with
  | self => exact Or.inl (.refl x)
  | @parens d t _ hk hd ih =>
    rcases ih with henclosed | ⟨m, hm, hobject, hwithin⟩
    · exact Or.inl (henclosed.snoc hk hd)
    · exact Or.inr ⟨m, hm, hobject, .parens hwithin hk hd⟩
  | @object d t _ hk hd ih =>
    rcases ih with henclosed | ⟨m, hm, hobject, hwithin⟩
    · have hparent := parent?_of_mem_children (mem_children_of_child? hd)
      have hno : t.is .parenthesizedExpression = false := by
        rw [Bool.eq_false_iff]
        intro hparen
        exact absurd hk (Node.not_isAny_of_is hparen (by decide))
      refine Or.inr ⟨t, hk, ?_, .self⟩
      rw [henclosed.climb_eq hparent hno, hd]
    · exact Or.inr ⟨m, hm, hobject, .object hwithin hk hd⟩

/-- In parentheses a member is changed like any other place. -/
theorem isWrittenThrough_of_parens {v : Cursor} (ht : v.assigned? = some t)
    (hk : t.is .parenthesizedExpression = true) (hmt : m ∈ t.children)
    (hm : m.is .memberExpression = true) (hx : m.child? .object = some x) :
    x.IsWrittenThrough := by
  have hany : m.isAny [.memberExpression, .subscriptExpression] = true :=
    Node.isAny_iff.2 ⟨_, List.mem_cons_self, Node.is_iff.1 hm⟩
  exact ⟨t, .parens (.object .self hany hx) hk hmt, .assigned ht⟩

-- ============================================================ reading uses

/-- What the construct next to a reading use is. -/
theorem isReadingUse_cases (h : x.isReadingUse = true) : ∃ p, x.climb.parent? = some p
    ∧ ((p.is .memberExpression = true ∧ (∃ name, p.node.propertyName? = some name
        ∧ name.isOneOf readingMembers = true) ∧ p.isMemberWritten = false)
      ∨ (p.is .forInStatement = true ∧ p.hasChild .right x.climb = true)
      ∨ p.is .arguments = true) := by
  unfold isReadingUse at h
  dsimp only at h
  split at h
  · cases h
  · next p hp =>
    refine ⟨p, hp, ?_⟩
    split at h
    · next hmember =>
      rw [Bool.and_eq_true, Bool.not_eq_true'] at h
      rw [Bool.and_eq_true] at hmember
      obtain ⟨hreads, hwritten⟩ := h
      split at hreads
      · next name hname => exact Or.inl ⟨hmember.1, ⟨name, hname, hreads⟩, hwritten⟩
      · cases hreads
    split at h
    · next hloop =>
      rw [Bool.and_eq_true] at hloop
      exact Or.inr (Or.inl hloop)
    · rw [Bool.and_eq_true] at h
      exact Or.inr (Or.inr h.1)

/-- A member that is not taken for written is not assigned to as it stands. -/
theorem assigned?_ne_of_isMemberWritten (h : m.isMemberWritten = false) (v : Cursor)
    (hv : v.isAny [.assignmentExpression, .augmentedAssignmentExpression,
      .updateExpression] = true) : v.assigned? ≠ some m := by
  intro hm
  have hself : ∀ r, v.child? r = some m → v.hasChild r m = true := fun r hr => by
    rw [hasChild, hr]
    exact beq_self_eq_true _
  have hside : v.hasChild .left m = true ∨ v.hasChild .argument m = true := by
    unfold assigned? at hm
    split at hm
    · exact Or.inl (hself _ hm)
    split at hm
    · exact Or.inr (hself _ hm)
    · next hno hupdate =>
      obtain ⟨s, hs, hk⟩ := Node.isAny_iff.1 hv
      simp only [List.mem_cons, List.not_mem_nil, or_false] at hs
      rcases hs with rfl | rfl | rfl
      · exact absurd (Node.isAny_iff.2 ⟨_, by simp, hk⟩) hno
      · exact absurd (Node.isAny_iff.2 ⟨_, by simp, hk⟩) hno
      · exact absurd (Node.is_iff.2 hk) hupdate
  have hwritten : m.isMemberWritten = true := by
    unfold isMemberWritten
    rw [(assigned?_eq_some hm).1]
    dsimp only
    rw [hv, Bool.true_and, Bool.or_eq_true]
    exact hside
  rw [h] at hwritten
  cases hwritten

/-- The value that a loop runs over is not what it assigns to. -/
theorem not_isTarget_of_right (hn : n.Identified) (hd : d ∈ (top n).walk)
    (hp : d.parent? = some p) (hk : p.is .forInStatement = true)
    (hright : p.hasChild .right d = true) : ¬ IsTarget d := by
  intro h
  obtain ⟨q, hq, hcases⟩ := h.parent?
  obtain rfl := Option.some.inj (hp.symm.trans hq)
  rcases hcases with hany | ⟨hparen, -⟩ | ⟨-, hleft⟩
  · exact absurd hany (Node.not_isAny_of_is hk (by decide))
  · rw [is, Node.is_false_of_kind (Node.is_iff.1 hk) (by decide)] at hparen
    cases hparen
  · unfold hasChild at hright
    split at hright
    · next e he =>
      have hpw : p ∈ (top n).walk := mem_walk_top_of_parent? hd hp
      have hew : e ∈ (top n).walk := mem_walk_trans hpw (mem_walk_of_child? he)
      obtain rfl := eq_of_same hn hew hd hright
      have hrole := List.find?_some he
      have hrole' := List.find?_some hleft
      rw [beq_iff_eq] at hrole hrole'
      rw [hrole] at hrole'
      cases hrole'
    · cases hright

theorem IsWrittenBehind.through (hx : x.Placed) (h : x.IsWrittenBehind) :
    x.IsWrittenThrough := by
  obtain ⟨m, name, hk, hobject, -, -, -, t, hmt, ht⟩ := h
  have hany : m.isAny [.memberExpression, .subscriptExpression] = true :=
    Node.isAny_iff.2 ⟨_, List.mem_cons_self, Node.is_iff.1 hk⟩
  exact ⟨t, (Within.object (.of_enclosed (enclosed_climb hx)) hany hobject).trans hmt, ht⟩

/-- Through a use that reads something is written just when it is written
behind a member. -/
theorem isWrittenThrough_iff_of_isReadingUse (hn : n.Identified) (hx : x ∈ (top n).walk)
    (h : x.isReadingUse = true) : x.IsWrittenThrough ↔ x.IsWrittenBehind := by
  obtain ⟨p, hp, hcases⟩ := isReadingUse_cases h
  have henclosed : Enclosed x x.climb := enclosed_climb (mem_walk_top.1 hx).1
  refine ⟨?_, IsWrittenBehind.through (mem_walk_top.1 hx).1⟩
  rintro ⟨t, hwithin, ht⟩
  rcases hwithin.enclosed_or with hparens | ⟨m, hm, hobject, hmt⟩
  · have htw : t ∈ (top n).walk := hparens.mem_walk hx
    have htarget : IsTarget x.climb := by
      rw [hparens.climb]
      exact ht.of_enclosed (enclosed_climb (mem_walk_top.1 htw).1)
    have hclimb : x.climb ∈ (top n).walk := henclosed.mem_walk hx
    refine absurd htarget ?_
    rcases hcases with ⟨hk, -⟩ | ⟨hk, hright⟩ | hk
    · exact not_isTarget_of_parent? hp hk (by decide) (by decide) (by decide)
    · exact not_isTarget_of_right hn hclimb hp hk hright
    · exact not_isTarget_of_parent? hp hk (by decide) (by decide) (by decide)
  · obtain rfl := Option.some.inj
      (hp.symm.trans (parent?_of_mem_children (mem_children_of_child? hobject)))
    rcases hcases with ⟨hk, ⟨name, hname, hreads⟩, hwritten⟩ | ⟨hk, -⟩ | hk
    · exact ⟨p, name, hk, hobject, hname, hreads, assigned?_ne_of_isMemberWritten hwritten,
        t, hmt, ht⟩
    · exact absurd hm (Node.not_isAny_of_is hk (by decide))
    · exact absurd hm (Node.not_isAny_of_is hk (by decide))

-- ============================================================ dense names

/-- The name that a declarator introduces is no target. -/
theorem not_isWrittenThrough_of_declarator {dec : Cursor}
    (hk : dec.is .variableDeclarator = true) (hname : dec.child? .name = some x) :
    ¬ x.IsWrittenThrough := by
  have hp := parent?_of_mem_children (mem_children_of_child? hname)
  have hclimb : x.climb = x := climb_of_parent? fun q hq => by
    obtain rfl := Option.some.inj (hp.symm.trans hq)
    exact Node.is_false_of_kind (Node.is_iff.1 hk) (by decide)
  rintro ⟨t, hwithin, ht⟩
  rcases hwithin.enclosed_or with hparens | ⟨m, hm, hobject, -⟩
  · cases hparens with
    | refl => exact not_isTarget_of_parent? hp hk (by decide) (by decide) (by decide) ht
    | parens hparen hmem _ =>
      obtain rfl := Option.some.inj (hp.symm.trans (parent?_of_mem_children hmem))
      rw [is, Node.is_false_of_kind (Node.is_iff.1 hk) (by decide)] at hparen
      cases hparen
  · rw [hclimb] at hobject
    obtain rfl := Option.some.inj
      (hp.symm.trans (parent?_of_mem_children (mem_children_of_child? hobject)))
    exact absurd hm (Node.not_isAny_of_is hk (by decide))

/-- A name is taken for an array if it is dense. -/
theorem isDenseName_of_isArray (hk : c.is .identifier = true) (h : c.isArray true = true) :
    c.isDenseName = true := by
  have hunparen : c.unparen = c := unparen_of_not_parens
    (Node.is_false_of_kind (Node.is_iff.1 hk) (by decide))
  have harray : c.is .array = false := Node.is_false_of_kind (Node.is_iff.1 hk) (by decide)
  unfold isArray at h
  cases hsize : c.node.size with
  | zero => rw [hsize] at h; cases h
  | succ fuel =>
    rw [hsize, isArrayWithin] at h
    rw [hunparen, harray, if_neg Bool.false_ne_true, if_pos hk] at h
    simpa using h

/-- Where a name is taken for a dense array, something is written through a
use of it just when it is written behind a member that may be read. -/
theorem isArray_writtenThrough_iff {source : Text} (hparse : parse source = .ok n)
    (hc : c ∈ (top n).walk) (hk : c.is .identifier = true) (h : c.isArray true = true) :
    ∃ scope, c.bindingScope? c.code = some scope
      ∧ ∀ x ∈ (top n).walk, x.IsUseOf scope c.code →
        (x.IsWrittenThrough ↔ x.IsWrittenBehind) := by
  have hn := parse_identified hparse
  have hdense := isDenseName_of_isArray hk h
  unfold isDenseName at hdense
  split at hdense
  · next init scope hinit hscope =>
    rw [Bool.and_eq_true, List.all_eq_true] at hdense
    obtain ⟨s, hs, d, dec, hb, hdec, hdeck, hname, -⟩ := declarator_of_resolve? hn hc hinit
    obtain rfl : s = scope := by
      rw [bindingScope?, hb] at hscope
      exact Option.some.inj hscope
    have honly : inScope (s.declarationsOf c.code) s = [d] := by
      rw [declarationsOf_eq hs, ← declarationsOf_eq hc]
      exact (found_of_lookUp hb).symm
    refine ⟨s, hscope, fun x hx huse => ?_⟩
    by_cases hsame : d.identifier.same x = true
    · have hidentifier : d.identifier ∈ (top n).walk :=
        mem_walk_trans hdec (mem_walk_of_child? hname)
      obtain rfl := eq_of_same hn hidentifier hx hsame
      have hno := not_isWrittenThrough_of_declarator hdeck hname
      exact iff_of_false hno fun hbehind => hno (hbehind.through (mem_walk_top.1 hx).1)
    · have href : x ∈ s.references c.code := by
        refine (mem_references_iff hn hs).2 ⟨hx, huse.kind, huse.spelled, huse.bound, ?_⟩
        intro y hy
        rw [honly] at hy
        obtain rfl := List.mem_singleton.1 hy
        simpa using hsame
      exact isWrittenThrough_iff_of_isReadingUse hn hx (hdense.2 x href)
  · cases hdense

/-- An array in a loop and in calls that read it. -/
theorem isArray_writtenThrough_in_function :
    ∃ n c, parse
        (Text.ofString "function f() \x7b var xs = [1]; for (x of xs) xs.push(x); \x7d") = .ok n
      ∧ c ∈ (top n).walk ∧ c.is .identifier = true ∧ c.code = Text.ofString "xs"
      ∧ c.isArray true = true
      ∧ ∃ scope, c.bindingScope? c.code = some scope
        ∧ ∀ x ∈ (top n).walk, x.IsUseOf scope c.code →
          (x.IsWrittenThrough ↔ x.IsWrittenBehind) := by
  have h : holdsAt
      (Text.ofString "function f() \x7b var xs = [1]; for (x of xs) xs.push(x); \x7d")
      [0, 3, 2, 4] (fun c =>
        c.is .identifier && c.code == Text.ofString "xs" && c.isArray true) = true := by
    decide +kernel
  obtain ⟨n, c, hn, hc, ht⟩ := exists_of_holdsAt h
  rw [Bool.and_eq_true, Bool.and_eq_true, beq_iff_eq] at ht
  exact ⟨n, c, hn, hc, ht.1.1, ht.1.2, ht.2, isArray_writtenThrough_iff hn hc ht.1.1 ht.2⟩

/-- Parentheses around the target hide that the length is assigned to. -/
theorem isArray_overlooks_parenthesized_target :
    ∃ n c x scope, parse (Text.ofString "var xs = [1]; (xs.length) = 3; xs.join();") = .ok n
      ∧ c ∈ (top n).walk ∧ c.is .identifier = true ∧ c.isArray true = true
      ∧ c.bindingScope? c.code = some scope
      ∧ x ∈ (top n).walk ∧ x.IsUseOf scope c.code ∧ x.IsWrittenThrough := by
  have h : holdsAt (Text.ofString "var xs = [1]; (xs.length) = 3; xs.join();") [1, 0]
      (fun v => (v.child? .left).any fun t => t.operands.head?.any fun m =>
        (m.child? .object).any fun x => (v.root.follow? [2, 0, 0, 0]).any fun c =>
          v.isAny [.assignmentExpression, .augmentedAssignmentExpression]
            && t.is .parenthesizedExpression && m.is .memberExpression
            && x.is .identifier && x.code == c.code
            && c.is .identifier && c.isArray true
            && (c.bindingScope? c.code).any fun s =>
              (x.bindingScope? c.code).any fun r => r.same s) = true := by
    decide +kernel
  obtain ⟨n, v, hn, hv, ht⟩ := exists_of_holdsAt h
  simp only [Option.any_eq_true, Bool.and_eq_true, beq_iff_eq] at ht
  obtain ⟨t, hleft, m, hoperand, x, hobject, c, hc,
    ⟨⟨⟨⟨⟨⟨⟨hv', ht'⟩, hm⟩, hx⟩, hcode⟩, hck⟩, harray⟩, s, hs, r, hr, hscopes⟩⟩ := ht
  have hroot : v.root = top n := (mem_walk_top.1 hv).2
  have hcw : c ∈ (top n).walk := hroot ▸ mem_walk_of_follow? hc
  have htw : t ∈ (top n).walk := mem_walk_trans hv (mem_walk_of_child? hleft)
  have hmt : m ∈ t.children := mem_children_of_mem_operands (List.mem_of_head? hoperand)
  have hxw : x ∈ (top n).walk :=
    mem_walk_trans (mem_walk_of_mem_children htw hmt) (mem_walk_of_child? hobject)
  obtain rfl := eq_of_same (parse_identified hn) (bindingScope?_mem_walk hxw hr)
    (bindingScope?_mem_walk hcw hs) hscopes
  have hkind : x.isAny [.identifier, .shorthandPropertyIdentifier] = true :=
    Node.isAny_iff.2 ⟨_, List.mem_cons_self, Node.is_iff.1 hx⟩
  exact ⟨n, c, x, r, hn, hcw, hck, harray, hs, hxw, ⟨hkind, hcode, hr⟩,
    isWrittenThrough_of_parens ((if_pos hv').trans hleft) ht' hmt hm hobject⟩

end Cursor

end Codemod
