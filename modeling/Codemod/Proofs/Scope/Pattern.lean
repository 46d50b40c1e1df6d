/-
The names in a pattern.

What is assigned to a pattern is stored in places: in the parts of an
object or array pattern, in the value of a pair and not in its key, on the
left of a default and not in its value (`Stores`). The names that a pattern
binds are the identifiers among these places. The search goes down the
pattern in step with `Stores` (`mem_boundIdentifiers_iff`), every node
between the pattern and a name hands the name on
(`mem_boundIdentifiers_between`), and the names stand in the order of the
walk (`boundIdentifiers_sublist`).

Main statement: `boundIdentifiers_exact`.
-/
import Codemod.Proofs.Scope.Constancy
import Codemod.Proofs.Tree.Order

namespace Codemod

/-- The parts of a pattern have their roles: a pair is a key and a value,
a default stands on the right of what it is for. -/
def Node.PatternFormed (n : Node) : Prop :=
  (n.is .pairPattern = true → n.operands.map (·.role) = [some .key, some .value])
  ∧ (n.isAny [.assignmentPattern, .objectAssignmentPattern] = true →
    n.operands.map (·.role) = [some .left, some .right])

instance (n : Node) : Decidable n.PatternFormed :=
  inferInstanceAs (Decidable ((_ → _) ∧ (_ → _)))

instance (n : Node) : Decidable (n.Every Node.PatternFormed) :=
  inferInstanceAs (Decidable (∀ m ∈ n.walk, m.PatternFormed))

namespace Cursor

variable {c d e f x : Cursor}

/-- What is assigned to a target is stored in a place: the target is the
place, or it hands the assignment on to a part of it. -/
inductive Stores : Cursor → Cursor → Prop
  | place {x : Cursor} (h : x.isAny [.identifier, .shorthandPropertyIdentifierPattern,
      .undefinedLit, .memberExpression, .subscriptExpression] = true) : Stores x x
  | parenthesized {c d x : Cursor} (h : c.is .parenthesizedExpression = true)
      (hd : c.operands = [d]) (hx : Stores d x) : Stores c x
  | part {c d x : Cursor} (h : c.isAny [.objectPattern, .arrayPattern, .restPattern] = true)
      (hd : d ∈ c.operands) (hx : Stores d x) : Stores c x
  | value {c d x : Cursor} (h : c.is .pairPattern = true) (hd : d ∈ c.operands)
      (hrole : d.node.role = some .value) (hx : Stores d x) : Stores c x
  | left {c d x : Cursor}
      (h : c.isAny [.assignmentPattern, .objectAssignmentPattern] = true)
      (hd : d ∈ c.operands) (hrole : d.node.role = some .left) (hx : Stores d x) :
      Stores c x

/-- The child is the key of a pair or the value of a default. -/
def isAside (c d : Cursor) : Bool :=
  c.is .pairPattern && d.node.role == some .key
    || c.isAny [.assignmentPattern, .objectAssignmentPattern] && d.node.role == some .right

-- ================================================================== names

theorem role_of_mem_operands {roles : List (Option Role)} (hd : d ∈ c.operands)
    (h : c.node.operands.map (·.role) = roles) : d.node.role ∈ roles := by
  rw [← h, ← map_node_operands, List.map_map]
  exact List.mem_map_of_mem hd

/-- Where a search for names goes on, the assignment is handed on. -/
theorem stores_of_bindsIn (hform : c.node.PatternFormed) (hopens : opensPattern c.node = true)
    (hd : d ∈ c.children) (hbinds : bindsIn c.node d.node = true) (hx : Stores d x) :
    Stores c x := by
  rw [bindsIn, Bool.and_eq_true, Bool.and_eq_true, Bool.not_eq_true', Bool.not_eq_true'] at hbinds
  obtain ⟨⟨hoperand, hkey⟩, hright⟩ := hbinds
  have hd : d ∈ c.operands := List.mem_filter.2 ⟨hd, hoperand⟩
  rw [opensPattern, Bool.or_eq_true] at hopens
  rcases hopens with hpattern | hparens
  · obtain ⟨s, hs, hk⟩ := Node.isAny_iff.1 hpattern
    have hgroup : s ∈ [Symbol.objectPattern, .arrayPattern, .restPattern] → Stores c x :=
      fun hs => .part (Node.isAny_iff.2 ⟨s, hs, hk⟩) hd hx
    have hdefault : s ∈ [Symbol.assignmentPattern, .objectAssignmentPattern] → Stores c x := by
      intro hs
      have hany := Node.isAny_iff.2 ⟨s, hs, hk⟩
      have hrole := role_of_mem_operands hd (hform.2 hany)
      rw [hany, Bool.true_and, beq_eq_false_iff_ne] at hright
      simp only [List.mem_cons, hright, List.not_mem_nil, or_false] at hrole
      exact .left hany hd hrole hx
    simp only [patternSymbols, List.mem_cons, List.not_mem_nil, or_false] at hs
    rcases hs with rfl | rfl | rfl | rfl | rfl | rfl
    · exact hgroup (by decide)
    · exact hgroup (by decide)
    · exact hdefault (by decide)
    · exact hdefault (by decide)
    · exact hgroup (by decide)
    · have hpair := Node.is_iff.2 hk
      have hrole := role_of_mem_operands hd (hform.1 hpair)
      rw [hpair, Bool.true_and, beq_eq_false_iff_ne] at hkey
      simp only [List.mem_cons, hkey, List.not_mem_nil, or_false, false_or] at hrole
      exact .value hpair hd hrole hx
  · rw [Bool.and_eq_true, beq_iff_eq, ← map_node_operands, List.length_map] at hparens
    obtain ⟨e, he⟩ := List.length_eq_one_iff.1 hparens.2
    obtain rfl : d = e := List.mem_singleton.1 (he ▸ hd)
    exact .parenthesized hparens.1 he hx

/-- A name that is stored to is found. -/
theorem Stores.mem_boundIdentifiers (h : Stores c x)
    (hname : x.isAny [.identifier, .shorthandPropertyIdentifierPattern] = true) :
    x ∈ c.boundIdentifiers := by
  induction h with
  | @place x _ =>
      rw [boundIdentifiers_eq, if_pos hname]
      exact List.mem_singleton.2 rfl
  | @parenthesized c d x hk hd _ ih =>
      have hk := Node.is_iff.1 hk
      have hmem : d ∈ c.operands := hd ▸ List.mem_singleton.2 rfl
      have hone : c.node.operands.length = 1 := by
        rw [← map_node_operands, hd]
        rfl
      refine mem_boundIdentifiers_of_operand ?_ hmem ?_ (ih hname)
      · simp [opensPattern, Node.is, hk, hone]
      · simp [bindsIn, Node.is, Node.isAny, hk, isOperand_of_mem_operands hmem]
  | @part c d x hk hd _ ih =>
      obtain ⟨s, hs, hk⟩ := Node.isAny_iff.1 hk
      have hpattern : s ∈ patternSymbols := by
        simp only [List.mem_cons, List.not_mem_nil, or_false] at hs
        rcases hs with rfl | rfl | rfl <;> decide
      refine mem_boundIdentifiers_of_operand (opensPattern_of_kind hk hpattern) hd ?_ (ih hname)
      simp only [List.mem_cons, List.not_mem_nil, or_false] at hs
      rcases hs with rfl | rfl | rfl <;>
        simp [bindsIn, Node.is, Node.isAny, hk, isOperand_of_mem_operands hd]
  | value hk hd hrole _ ih =>
      have hk := Node.is_iff.1 hk
      refine mem_boundIdentifiers_of_operand (opensPattern_of_kind hk (by decide)) hd ?_ (ih hname)
      simp [bindsIn, Node.is, Node.isAny, hk, hrole, isOperand_of_mem_operands hd]
  | left hk hd hrole _ ih =>
      obtain ⟨s, hs, hk⟩ := Node.isAny_iff.1 hk
      have hpattern : s ∈ patternSymbols := by
        simp only [List.mem_cons, List.not_mem_nil, or_false] at hs
        rcases hs with rfl | rfl <;> decide
      refine mem_boundIdentifiers_of_operand (opensPattern_of_kind hk hpattern) hd ?_ (ih hname)
      simp [bindsIn, hrole, isOperand_of_mem_operands hd]

/-- The names that a pattern binds are the identifiers that it stores to. -/
theorem mem_boundIdentifiers_iff (hc : c.node.Every Node.PatternFormed) :
    x ∈ c.boundIdentifiers ↔ c.Stores x
      ∧ x.isAny [.identifier, .shorthandPropertyIdentifierPattern] = true := by
  refine ⟨fun hx => ?_, fun ⟨hstores, hname⟩ => hstores.mem_boundIdentifiers hname⟩
  induction c using Cursor.ind with
  | h c ih =>
      rw [boundIdentifiers_eq] at hx
      split at hx
      · next hname =>
          obtain rfl := List.mem_singleton.1 hx
          obtain ⟨s, hs, hk⟩ := Node.isAny_iff.1 hname
          refine ⟨.place (Node.isAny_iff.2 ⟨s, ?_, hk⟩), hname⟩
          exact List.mem_append_left [.undefinedLit, .memberExpression, .subscriptExpression] hs
      · split at hx
        · next hopens =>
            obtain ⟨d, hd, hx⟩ := List.mem_flatMap.1 hx
            split at hx
            · next hbinds =>
                have hdform := (Node.every_iff.1 hc).2 d.node (node_mem_of_mem_children hd)
                obtain ⟨hstores, hname⟩ := ih d hd hdform hx
                exact ⟨stores_of_bindsIn (Node.every_iff.1 hc).1 hopens hd hbinds hstores, hname⟩
            · cases hx
        · cases hx

/-- A child that is bound in is no key and no default value. -/
theorem isAside_of_bindsIn (h : bindsIn c.node d.node = true) : isAside c d = false := by
  rw [bindsIn, Bool.and_eq_true, Bool.and_eq_true, Bool.not_eq_true', Bool.not_eq_true'] at h
  rw [isAside, Bool.or_eq_false_iff]
  exact ⟨h.1.2, h.2⟩

-- ================================================================ the walk

/-- The names stand in a pattern in the order in which they are found. -/
theorem boundIdentifiers_sublist (c : Cursor) : c.boundIdentifiers.Sublist c.walk := by
  induction c using Cursor.ind with
  | h c ih =>
      rw [boundIdentifiers_eq, walk_eq]
      split
      · exact List.singleton_sublist.2 List.mem_cons_self
      · split
        · refine List.Sublist.cons c ?_
          generalize c.children = ds at ih
          induction ds with
          | nil => exact List.Sublist.slnil
          | cons d ds ihds =>
              obtain ⟨hd, hds⟩ := List.forall_mem_cons.1 ih
              rw [List.flatMap_cons, List.flatMap_cons]
              refine List.Sublist.append ?_ (ihds hds)
              split
              · exact hd
              · exact List.nil_sublist _
        · exact List.nil_sublist _

/-- Different children have nothing below them in common. -/
theorem eq_of_mem_walk_children (he : e ∈ c.children) (hf : f ∈ c.children)
    (hxe : x ∈ e.walk) (hxf : x ∈ f.walk) : e = f := by
  obtain ⟨i, hi⟩ := List.getElem?_of_mem he
  obtain ⟨j, hj⟩ := List.getElem?_of_mem hf
  obtain ⟨p, hp⟩ := exists_follow? hxe
  obtain ⟨q, hq⟩ := exists_follow? hxf
  have hpath : c.path ++ [i] ++ p = c.path ++ [j] ++ q := by
    rw [← path_of_childAt? hi, ← path_of_childAt? hj, ← path_of_follow? hp,
      path_of_follow? hq]
  rw [List.append_assoc, List.append_assoc] at hpath
  obtain rfl := (List.cons.inj (List.append_cancel_left hpath)).1
  exact Option.some.inj (hi.symm.trans hj)

theorem not_mem_walk_of_mem_children (hd : d ∈ c.children) : c ∉ d.walk := by
  intro h
  obtain ⟨i, hi⟩ := List.getElem?_of_mem hd
  obtain ⟨p, hp⟩ := exists_follow? h
  have hlen := congrArg List.length (path_of_follow? hp)
  rw [path_of_childAt? hi, List.length_append, List.length_append] at hlen
  simp at hlen
  omega

/-- A name that is bound is bound by every node between it and the
pattern. -/
theorem mem_boundIdentifiers_between (hx : x ∈ c.boundIdentifiers) (hd : d ∈ c.walk)
    (hxd : x ∈ d.walk) : x ∈ d.boundIdentifiers := by
  induction c using Cursor.ind with
  | h c ih =>
      rcases mem_walk_iff.1 hd with rfl | ⟨e, he, hde⟩
      · exact hx
      · rw [boundIdentifiers_eq] at hx
        split at hx
        · obtain rfl := List.mem_singleton.1 hx
          exact absurd (mem_walk_trans hde hxd) (not_mem_walk_of_mem_children he)
        · split at hx
          · obtain ⟨f, hf, hxf⟩ := List.mem_flatMap.1 hx
            split at hxf
            · obtain rfl := eq_of_mem_walk_children he hf (mem_walk_trans hde hxd)
                (mem_walk_of_mem_boundIdentifiers hxf)
              exact ih e he hxf hde
            · cases hxf
          · cases hx

/-- Nothing is bound below a key or a default value. -/
theorem not_mem_boundIdentifiers_of_isAside (hd : d ∈ c.walk) (he : e ∈ d.children)
    (haside : isAside d e = true) (hx : x ∈ e.walk) : x ∉ c.boundIdentifiers := by
  intro hxc
  have hxd := mem_boundIdentifiers_between hxc hd (mem_walk_iff.2 (Or.inr ⟨e, he, hx⟩))
  rw [boundIdentifiers_eq] at hxd
  split at hxd
  · obtain rfl := List.mem_singleton.1 hxd
    exact not_mem_walk_of_mem_children he hx
  · split at hxd
    · obtain ⟨f, hf, hxf⟩ := List.mem_flatMap.1 hxd
      split at hxf
      · next hbinds =>
          obtain rfl := eq_of_mem_walk_children he hf hx (mem_walk_of_mem_boundIdentifiers hxf)
          rw [isAside_of_bindsIn hbinds] at haside
          cases haside
      · cases hxf
    · cases hxd

/-- Nothing is bound below a member or a subscript. -/
theorem not_mem_boundIdentifiers_of_isMember (hd : d ∈ c.walk)
    (hk : d.isAny [.memberExpression, .subscriptExpression] = true) (hx : x ∈ d.walk) :
    x ∉ c.boundIdentifiers := by
  intro hxc
  have hxd := mem_boundIdentifiers_between hxc hd hx
  obtain ⟨s, hs, hk⟩ := Node.isAny_iff.1 hk
  have hnone : d.boundIdentifiers = [] := by
    simp only [List.mem_cons, List.not_mem_nil, or_false] at hs
    rw [boundIdentifiers_eq]
    rcases hs with rfl | rfl <;>
      simp [isAny, opensPattern, Node.isPattern, patternSymbols, Node.isAny, Node.is, hk]
  rw [hnone] at hxd
  cases hxd

/-- The names found in a binding pattern or a target are the identifiers
that are stored to, each of them once and in source order. Keys, computed
or not, default values, members and subscripts add nothing. -/
theorem boundIdentifiers_exact (hc : c.node.Every Node.PatternFormed) :
    (∀ x, x ∈ c.boundIdentifiers ↔ c.Stores x
      ∧ x.isAny [.identifier, .shorthandPropertyIdentifierPattern] = true)
    ∧ c.boundIdentifiers.Sublist c.walk
    ∧ c.boundIdentifiers.Nodup
    ∧ (∀ d ∈ c.walk, ∀ e ∈ d.children, isAside d e = true →
      ∀ x ∈ e.walk, x ∉ c.boundIdentifiers)
    ∧ ∀ d ∈ c.walk, d.isAny [.memberExpression, .subscriptExpression] = true →
      ∀ x ∈ d.walk, x ∉ c.boundIdentifiers :=
  ⟨fun _ => mem_boundIdentifiers_iff hc, boundIdentifiers_sublist c,
    c.walk_nodup.sublist (boundIdentifiers_sublist c),
    fun _ hd _ he haside _ hx => not_mem_boundIdentifiers_of_isAside hd he haside hx,
    fun _ hd hk _ hx => not_mem_boundIdentifiers_of_isMember hd hk hx⟩

theorem boundIdentifiers_exact_nested :
    ∃ n c, parse (Text.ofString "(\x7ba, b: [c = d.e, ...f], [g]: h.i\x7d = j);") = .ok n
      ∧ c ∈ (top n).walk ∧ c.is .objectPattern = true
      ∧ c.node.Every Node.PatternFormed
      ∧ c.boundIdentifiers.map code = ["a", "c", "f"].map Text.ofString
      ∧ (∀ x ∈ c.boundIdentifiers, c.Stores x) ∧ c.boundIdentifiers.Nodup := by
  have h : holdsAt (Text.ofString "(\x7ba, b: [c = d.e, ...f], [g]: h.i\x7d = j);") [0, 0, 1, 0]
      (fun c => c.is .objectPattern && decide (c.node.Every Node.PatternFormed)
        && c.boundIdentifiers.map code == ["a", "c", "f"].map Text.ofString) = true := by
    decide +kernel
  obtain ⟨n, c, hn, hcw, ht⟩ := exists_of_holdsAt h
  rw [Bool.and_eq_true, Bool.and_eq_true, decide_eq_true_iff, beq_iff_eq] at ht
  obtain ⟨⟨hk, hform⟩, hcodes⟩ := ht
  obtain ⟨hmem, -, hnodup, -⟩ := boundIdentifiers_exact hform
  exact ⟨n, c, hn, hcw, hk, hform, hcodes, fun x hx => ((hmem x).1 hx).1, hnodup⟩

end Cursor

end Codemod
