/-
The shape of expressions.

What a rule takes out of an expression is what it finds by role: the
function and the arguments of a call, the object of a member access, the
sides of a comparison. In a shaped tree nothing else of weight is left
behind: bare tokens and comments are leaves, and the parts of an
expression in other roles hold nothing and do nothing (`Node.Formed`).

An effect is an expression whose evaluation does something. `Node.effects`
lists the effects of a tree in source order, and the lemmas below say
where those of an expression lie: parentheses have those of what they
hold (`effects_unparen`), a call has its own, those of its function and
those of its arguments (`effects_call`).
-/
import Mathlib.Data.List.Basic
import Codemod.Proofs.Tree.Identity
import Codemod.Tree.Expression

namespace Codemod

-- ============================================================== effects

/-- The kinds of expression whose evaluation does something. -/
def effectSymbols : List Symbol := [
  .callExpression, .newExpression, .awaitExpression, .yieldExpression,
  .assignmentExpression, .augmentedAssignmentExpression, .updateExpression]

/-- The test for effects, on kinds. -/
def isEffectKind (k : Kind) (named : Bool) : Bool :=
  named && k.isAny effectSymbols

namespace Node

/-- The node is an effect. -/
def isEffect (n : Node) : Bool := isEffectKind n.kind n.named

/-- The effects of a tree, in source order. -/
def effects (n : Node) : List Nat := n.listed isEffectKind

/-- The node has no parts and is no effect. -/
def isMute (n : Node) : Bool := n.children.isEmpty && !n.isEffect

theorem effects_eq (n : Node) :
    n.effects = n.ownListed isEffectKind ++ n.children.flatMap effects :=
  listed_eq isEffectKind n

theorem effects_of_isMute {n : Node} (h : n.isMute = true) : n.effects = [] := by
  simp only [isMute, Bool.and_eq_true, List.isEmpty_iff, Bool.not_eq_true'] at h
  have hown : n.ownListed isEffectKind = [] := by
    rw [ownListed, show isEffectKind n.kind n.named = false from h.2]
    rfl
  rw [effects_eq, h.1, hown]
  rfl

-- ================================================================ shape

/-- The roles in which the parts of an expression stand. -/
def partRoles? : Symbol → Option (List Role)
  | .callExpression => some [.function, .arguments]
  | .memberExpression => some [.object]
  | .binaryExpression => some [.left, .right]
  | .unaryExpression => some [.argument]
  | .string => some []
  | _ => none

/-- The kinds of expression that are written as one word. -/
def atomSymbols : List Symbol := [
  .identifier, .thisExpr, .number, .shorthandPropertyIdentifier,
  .shorthandPropertyIdentifierPattern]

/-- The node is a bare token, a comment, a name or a number. -/
def isAtom (n : Node) : Bool := !n.isOperand || n.isAny atomSymbols

/-- The child stands in one of the roles. -/
def standsIn (roles : List Role) (c : Node) : Bool :=
  match c.role with
  | some r => roles.contains r
  | none => false

/-- The children in the given roles come in that order, no role twice;
the others are mute. -/
structure Fits (roles : List Role) (cs : List Node) : Prop where
  ordered : ((cs.filter (standsIn roles)).filterMap (·.role)).Sublist roles
  others : ∀ c ∈ cs, standsIn roles c = false → c.isMute = true

/-- What a node has to be to stand in a role, where rules rely on it. -/
def roleTest? : Option Role → Option (Node → Bool)
  | some .parameters => some (·.is .formalParameters)
  | some .kind => some isMute
  | _ => none

/-- The node is what its role asks for. -/
def InPlace (n : Node) : Prop :=
  ∀ test, roleTest? n.role = some test → test n = true

/-- White space makes no difference. -/
theorem InPlace.placed {n : Node} (h : n.InPlace) {l : Text} :
    (n.placed n.role l).InPlace := by
  intro test htest
  have hpass := h test htest
  unfold roleTest? at htest
  split at htest
  · obtain rfl := Option.some.inj htest
    exact hpass
  · obtain rfl := Option.some.inj htest
    exact hpass
  · cases htest

/-- The node is put together as the grammar has it, as far as rules rely
on it. -/
structure Formed (n : Node) : Prop where
  /-- Bare tokens, comments, names and numbers are leaves. -/
  plain : n.isAtom = true → n.children = []
  /-- Only leaves have a text of their own. -/
  worded : n.text.isSome = true → n.children = []
  /-- Expressions have their parts in their roles. -/
  parts : ∀ s roles, n.kind = .symbol s → partRoles? s = some roles →
    Fits roles n.children
  /-- Between the substitutions of a template there is only text. -/
  template : n.is .templateString = true →
    ∀ c ∈ n.children, c.is .templateSubstitution = false → c.isMute = true
  /-- The children are what their roles ask for. -/
  inPlace : ∀ c ∈ n.children, c.InPlace

/-- Every node of the tree is formed. -/
def Shaped (n : Node) : Prop := ∀ m ∈ n.walk, m.Formed

theorem Shaped.formed {n : Node} (h : n.Shaped) : n.Formed :=
  h n (self_mem_walk n)

theorem Shaped.of_mem_walk {n m : Node} (h : n.Shaped) (hm : m ∈ n.walk) :
    m.Shaped :=
  fun _ hk => h _ (mem_walk_trans hm hk)

theorem Shaped.of_mem_children {n c : Node} (h : n.Shaped)
    (hc : c ∈ n.children) : c.Shaped :=
  h.of_mem_walk (mem_walk_of_child hc (self_mem_walk c))

theorem shaped_iff {n : Node} :
    n.Shaped ↔ n.Formed ∧ ∀ c ∈ n.children, c.Shaped := by
  constructor
  · intro h
    exact ⟨h.formed, fun c hc => h.of_mem_children hc⟩
  · rintro ⟨h, hs⟩ m hm
    rcases mem_walk_iff.1 hm with rfl | ⟨c, hc, hm⟩
    · exact h
    · exact hs c hc m hm

theorem effects_of_not_isOperand {n : Node} (h : n.Formed)
    (hn : n.isOperand = false) : n.effects = [] := by
  refine effects_of_isMute ?_
  have hop : n.isEffect = false := by
    rw [isOperand] at hn
    rw [isEffect, isEffectKind]
    cases hnamed : n.named with
    | false => rfl
    | true =>
        rw [hnamed, Bool.true_and, Bool.not_eq_false'] at hn
        rw [show n.kind = .symbol .comment by simpa [is] using hn]
        rfl
  have hatom : n.isAtom = true := by rw [isAtom, hn]; rfl
  rw [isMute, h.plain hatom, hop]
  rfl

-- ==================================================== shape and identity

theorem copy_eq (n : Node) :
    n.copy = { n with id := none, children := n.children.map copy } := by
  obtain ⟨i, k, b, r, l, t, cs, z⟩ := n
  rw [copy, copyAll_eq]

@[simp] theorem role_copy (n : Node) : n.copy.role = n.role := by
  rw [copy_eq]

@[simp] theorem isMute_copy (n : Node) : n.copy.isMute = n.isMute := by
  rw [copy_eq, isMute, isMute]
  cases n.children <;> rfl

theorem is_copy (n : Node) (s : Symbol) : n.copy.is s = n.is s := by
  rw [copy_eq]
  rfl

theorem inPlace_copy {n : Node} : n.copy.InPlace ↔ n.InPlace := by
  have htest : ∀ test, roleTest? n.role = some test → test n.copy = test n := by
    intro test h
    unfold roleTest? at h
    split at h
    · obtain rfl := Option.some.inj h
      exact is_copy n _
    · obtain rfl := Option.some.inj h
      exact isMute_copy n
    · cases h
  rw [InPlace, InPlace, role_copy]
  constructor
  · exact fun h test ht => (htest test ht).symm.trans (h test ht)
  · exact fun h test ht => (htest test ht).trans (h test ht)

theorem fits_map_copy {roles : List Role} {cs : List Node} :
    Fits roles (cs.map copy) ↔ Fits roles cs := by
  have hstands : ∀ c : Node, standsIn roles c.copy = standsIn roles c := by
    intro c
    rw [standsIn, standsIn, role_copy]
  have hroles : ((cs.map copy).filter (standsIn roles)).filterMap (·.role)
      = (cs.filter (standsIn roles)).filterMap (·.role) := by
    rw [List.filter_map, List.filterMap_map]
    have hcomp : standsIn roles ∘ copy = standsIn roles := funext hstands
    rw [hcomp]
    exact List.filterMap_congr fun c _ => role_copy c
  constructor
  · intro h
    refine ⟨hroles ▸ h.ordered, fun c hc hs => ?_⟩
    rw [← isMute_copy]
    exact h.others c.copy (List.mem_map_of_mem hc) ((hstands c).trans hs)
  · intro h
    refine ⟨hroles ▸ h.ordered, fun d hd hs => ?_⟩
    obtain ⟨c, hc, rfl⟩ := List.mem_map.1 hd
    rw [isMute_copy]
    exact h.others c hc ((hstands c).symm.trans hs)

theorem formed_copy {n : Node} : n.copy.Formed ↔ n.Formed := by
  have hchildren : n.copy.children = n.children.map copy := by rw [copy_eq]
  have hkind : n.copy.kind = n.kind := by rw [copy_eq]
  have hop : n.copy.isAtom = n.isAtom := by rw [copy_eq]; rfl
  have htext : n.copy.text = n.text := by rw [copy_eq]
  constructor
  · intro h
    refine ⟨fun ho => ?_, fun ht => ?_, fun s roles hk hr => ?_,
      fun ht c hc hs => ?_, fun c hc => ?_⟩
    · have := h.plain (hop.trans ho)
      rw [hchildren, List.map_eq_nil_iff] at this
      exact this
    · have := h.worded (by rw [htext]; exact ht)
      rw [hchildren, List.map_eq_nil_iff] at this
      exact this
    · have := h.parts s roles (hkind.trans hk) hr
      rw [hchildren, fits_map_copy] at this
      exact this
    · rw [← isMute_copy]
      refine h.template ((is_copy n _).trans ht) c.copy ?_ ((is_copy c _).trans hs)
      rw [hchildren]
      exact List.mem_map_of_mem hc
    · rw [← inPlace_copy]
      exact h.inPlace c.copy (by rw [hchildren]; exact List.mem_map_of_mem hc)
  · intro h
    refine ⟨fun ho => ?_, fun ht => ?_, fun s roles hk hr => ?_,
      fun ht d hd hs => ?_, fun d hd => ?_⟩
    · rw [hchildren, h.plain (hop.symm.trans ho)]
      rfl
    · rw [hchildren, h.worded (by rw [← htext]; exact ht)]
      rfl
    · rw [hchildren, fits_map_copy]
      exact h.parts s roles (hkind.symm.trans hk) hr
    · rw [hchildren] at hd
      obtain ⟨c, hc, rfl⟩ := List.mem_map.1 hd
      rw [isMute_copy]
      exact h.template ((is_copy n _).symm.trans ht) c hc ((is_copy c _).symm.trans hs)
    · rw [hchildren] at hd
      obtain ⟨c, hc, rfl⟩ := List.mem_map.1 hd
      exact inPlace_copy.2 (h.inPlace c hc)

/-- Shape does not depend on identities. -/
theorem shaped_copy {n : Node} : n.copy.Shaped ↔ n.Shaped := by
  induction n using Node.ind with
  | h n ih =>
      rw [shaped_iff, shaped_iff, formed_copy]
      refine and_congr_right fun _ => ?_
      have hchildren : n.copy.children = n.children.map copy := by rw [copy_eq]
      rw [hchildren, List.forall_mem_map]
      exact forall₂_congr ih

theorem copyAll_numberAll_of {cs : List Node}
    (ih : ∀ c ∈ cs, ∀ k, (c.number k).1.copy = c.copy) (k : Nat) :
    (numberAll k cs).1.map copy = cs.map copy := by
  induction cs generalizing k with
  | nil => rfl
  | cons c cs ihc =>
      rw [numberAll_cons, List.map_cons, List.map_cons,
        ih c List.mem_cons_self,
        ihc fun d hd => ih d (List.mem_cons_of_mem _ hd)]

theorem copy_number (k : Nat) (n : Node) : (n.number k).1.copy = n.copy := by
  induction n using Node.ind generalizing k with
  | h n ih =>
      rw [number_eq, copy_eq, copy_eq n]
      simp only [copyAll_numberAll_of ih]

theorem shaped_number {k : Nat} {n : Node} :
    (n.number k).1.Shaped ↔ n.Shaped := by
  rw [← shaped_copy, copy_number, shaped_copy]

theorem renumberAll_cons (k : Nat) (c : Node) (cs : List Node) :
    renumberAll k (c :: cs)
      = ((c.renumber k).1 :: (renumberAll (c.renumber k).2 cs).1,
        (renumberAll (c.renumber k).2 cs).2) := by
  rw [renumberAll]

theorem copyAll_renumberAll_of {cs : List Node}
    (ih : ∀ c ∈ cs, ∀ k, (c.renumber k).1.copy = c.copy) (k : Nat) :
    (renumberAll k cs).1.map copy = cs.map copy := by
  induction cs generalizing k with
  | nil => rfl
  | cons c cs ihc =>
      rw [renumberAll_cons, List.map_cons, List.map_cons,
        ih c List.mem_cons_self,
        ihc fun d hd => ih d (List.mem_cons_of_mem _ hd)]

theorem copy_renumber (k : Nat) (n : Node) :
    (n.renumber k).1.copy = n.copy := by
  induction n using Node.ind generalizing k with
  | h n ih =>
      obtain ⟨i, s, b, r, l, t, cs, z⟩ := n
      rw [renumber, copy_eq, copy_eq ⟨i, s, b, r, l, t, cs, z⟩]
      simp only [copyAll_renumberAll_of ih]

theorem shaped_renumber {k : Nat} {n : Node} :
    (n.renumber k).1.Shaped ↔ n.Shaped := by
  rw [← shaped_copy, copy_renumber, shaped_copy]

section Every

variable {Q : Node → Prop} (hQ : ∀ m : Node, Q m.copy ↔ Q m) {n : Node} {k : Nat}
include hQ

/-- What takes no notice of identities holds throughout whatever they are. -/
theorem every_copy : n.copy.Every Q ↔ n.Every Q := by
  induction n using Node.ind with
  | h n ih =>
      have hchildren : n.copy.children = n.children.map copy := by rw [copy_eq]
      rw [every_iff, every_iff, hQ, hchildren, List.forall_mem_map]
      exact and_congr_right fun _ => forall₂_congr ih

theorem every_number : (n.number k).1.Every Q ↔ n.Every Q := by
  rw [← every_copy hQ, copy_number, every_copy hQ]

theorem every_renumber : (n.renumber k).1.Every Q ↔ n.Every Q := by
  rw [← every_copy hQ, copy_renumber, every_copy hQ]

end Every

-- ======================================================= parts by role

theorem standsIn_iff {roles : List Role} {c : Node} :
    standsIn roles c = true ↔ ∃ r ∈ roles, c.role = some r := by
  unfold standsIn
  cases c.role with
  | none => simp
  | some r => simp

/-- Nodes with different roles, in the order of the roles, are found by
role in that order. -/
theorem eq_filterMap_find?_role {roles : List Role} {ds : List Node}
    (hnd : roles.Nodup) (hds : ∀ d ∈ ds, d.role.isSome)
    (h : (ds.filterMap (·.role)).Sublist roles) :
    ds = roles.filterMap fun r => ds.find? (·.role == some r) := by
  induction roles generalizing ds with
  | nil =>
      rw [List.sublist_nil, List.filterMap_eq_nil_iff] at h
      cases ds with
      | nil => rfl
      | cons d ds =>
          have := hds d List.mem_cons_self
          rw [h d List.mem_cons_self] at this
          cases this
  | cons r rs ih =>
      rw [List.nodup_cons] at hnd
      rw [List.filterMap_cons]
      by_cases hr : ∃ d ds', ds = d :: ds' ∧ d.role = some r
      · obtain ⟨d, ds', rfl, hd⟩ := hr
        have hfind : (d :: ds').find? (·.role == some r) = some d := by
          rw [List.find?_cons, hd]
          simp
        have h' : (ds'.filterMap (·.role)).Sublist rs := by
          rw [List.filterMap_cons, hd] at h
          exact List.cons_sublist_cons.1 h
        have hrest : (rs.filterMap fun s => (d :: ds').find? (·.role == some s))
            = rs.filterMap fun s => ds'.find? (·.role == some s) := by
          refine List.filterMap_congr fun s hs => ?_
          have hne : r ≠ s := by
            rintro rfl
            exact hnd.1 hs
          have hbeq : (some r == some s) = false := by simpa using hne
          rw [List.find?_cons, hd, hbeq]
        rw [hfind, hrest,
          ← ih hnd.2 (fun e he => hds e (List.mem_cons_of_mem _ he)) h']
      · have hsub : (ds.filterMap (·.role)).Sublist rs := by
          cases ds with
          | nil => simp
          | cons d ds' =>
              cases hd : d.role with
              | none =>
                  have := hds d List.mem_cons_self
                  rw [hd] at this
                  cases this
              | some q =>
                  rw [List.filterMap_cons, hd] at h ⊢
                  have hqr : q ≠ r := by
                    rintro rfl
                    exact hr ⟨d, ds', rfl, hd⟩
                  rcases List.sublist_cons_iff.1 h with h | ⟨l, hl, -⟩
                  · exact h
                  · exact absurd (List.cons.inj hl).1 hqr
        have hnone : ds.find? (·.role == some r) = none := by
          rw [List.find?_eq_none]
          intro d hd hdr
          refine hnd.1 (hsub.subset (List.mem_filterMap.2 ⟨d, hd, ?_⟩))
          simpa using hdr
        rw [hnone]
        exact ih hnd.2 hds hsub

/-- The children in the roles of their parent are those found by role. -/
theorem Fits.filter_eq {roles : List Role} {cs : List Node} (h : Fits roles cs)
    (hnd : roles.Nodup) :
    cs.filter (standsIn roles)
      = roles.filterMap fun r => cs.find? (·.role == some r) := by
  rw [eq_filterMap_find?_role hnd ?_ h.ordered]
  · refine List.filterMap_congr fun r hr => ?_
    rw [List.find?_filter]
    refine congrArg (cs.find? ·) (funext fun c => ?_)
    cases hc : c.role == some r with
    | false => simp
    | true =>
        have hin : standsIn roles c = true :=
          standsIn_iff.2 ⟨r, hr, by simpa using hc⟩
        simp [hin]
  · intro d hd
    obtain ⟨r, -, hr⟩ := standsIn_iff.1 (List.mem_filter.1 hd).2
    rw [hr]
    rfl

/-- All effects below a node lie in its parts. -/
theorem Fits.effects_eq {roles : List Role} {cs : List Node} (h : Fits roles cs)
    (hnd : roles.Nodup) :
    cs.flatMap effects
      = (roles.filterMap fun r => cs.find? (·.role == some r)).flatMap effects := by
  rw [← h.filter_eq hnd]
  have hothers := h.others
  clear h
  induction cs with
  | nil => rfl
  | cons c cs ih =>
      have ih := ih fun d hd => hothers d (List.mem_cons_of_mem _ hd)
      rw [List.flatMap_cons, List.filter_cons, ih]
      cases hc : standsIn roles c with
      | true => rw [if_pos rfl, List.flatMap_cons]
      | false =>
          rw [effects_of_isMute (hothers c List.mem_cons_self hc)]
          rfl

/-- The parts of a node list some of what the node lists. -/
theorem Fits.listed_sublist {roles : List Role} {cs : List Node}
    (h : Fits roles cs) (hnd : roles.Nodup) (p : Kind → Bool → Bool) :
    ((roles.filterMap fun r => cs.find? (·.role == some r)).flatMap
      (listed p)).Sublist (cs.flatMap (listed p)) := by
  rw [← h.filter_eq hnd]
  exact List.Sublist.flatMap List.filter_sublist _

end Node

namespace Cursor

-- ======================================================== parts of places

theorem map_node_child? (c : Cursor) (r : Role) :
    (c.child? r).map (·.node) = c.node.children.find? (·.role == some r) := by
  rw [child?, ← map_node_children, List.find?_map]
  rfl

theorem mem_walk_of_child? {c d : Cursor} {r : Role} (h : c.child? r = some d) :
    d ∈ c.walk :=
  mem_walk_of_mem_children (self_mem_walk c) (mem_children_of_child? h)

theorem map_node_parts (c : Cursor) (roles : List Role) :
    (roles.filterMap c.child?).map (·.node)
      = roles.filterMap fun r => c.node.children.find? (·.role == some r) := by
  rw [List.map_filterMap]
  exact List.filterMap_congr fun r _ => map_node_child? c r

/-- The effects of an expression: itself, and those of its parts. -/
theorem effects_parts {c : Cursor} {s : Symbol} {roles : List Role}
    (h : c.node.Formed) (hk : c.is s = true)
    (hr : Node.partRoles? s = some roles) (hnd : roles.Nodup) :
    c.node.effects = c.node.ownListed isEffectKind
      ++ (roles.filterMap c.child?).flatMap (·.node.effects) := by
  have hfits := h.parts s roles (by simpa [is, Node.is] using hk) hr
  rw [Node.effects_eq, hfits.effects_eq hnd, ← map_node_parts,
    List.flatMap_map]

theorem listed_parts {c : Cursor} {s : Symbol} {roles : List Role}
    (h : c.node.Formed) (hk : c.is s = true)
    (hr : Node.partRoles? s = some roles) (hnd : roles.Nodup)
    (p : Kind → Bool → Bool) :
    ((roles.filterMap c.child?).flatMap (·.node.listed p)).Sublist
      (c.node.listed p) := by
  have hfits := h.parts s roles (by simpa [is, Node.is] using hk) hr
  rw [Node.listed_eq p c.node]
  refine List.Sublist.trans ?_ (List.sublist_append_right _ _)
  have := hfits.listed_sublist hnd p
  rw [← map_node_parts, List.flatMap_map] at this
  exact this

-- ========================================================== parentheses

theorem map_node_operands (c : Cursor) :
    c.operands.map (·.node) = c.node.operands := by
  rw [operands, Node.operands, ← map_node_children, List.filter_map]
  rfl

end Cursor

namespace Node

/-- The expression without the parentheses around it. -/
def strip (n : Node) : Node :=
  if n.is .parenthesizedExpression then
    match h : n.operands with
    | [d] => strip d
    | _ => n
  else n
termination_by n.size
decreasing_by
  exact size_lt_of_mem_children (List.mem_of_mem_filter
    (show d ∈ n.operands by rw [h]; exact List.mem_singleton.2 rfl))

theorem strip_of_operands {n d : Node} (hk : n.is .parenthesizedExpression = true)
    (h : n.operands = [d]) : n.strip = d.strip := by
  rw [strip, if_pos hk]
  split
  · next e he =>
      rw [h] at he
      cases he
      rfl
  · next hno => exact absurd h (hno d)

theorem strip_of_no_operand {n : Node}
    (h : n.is .parenthesizedExpression = true → ∀ d, n.operands ≠ [d]) :
    n.strip = n := by
  rw [strip]
  split
  · next hk =>
      split
      · next d hd => exact absurd hd (h hk d)
      · rfl
  · rfl

theorem children_copy (n : Node) : n.copy.children = n.children.map copy := by
  rw [copy_eq]

theorem isOperand_copy (n : Node) : n.copy.isOperand = n.isOperand := by
  rw [copy_eq]
  rfl

theorem map_copy_filter {q : Node → Bool} (hq : ∀ c : Node, q c.copy = q c)
    (cs : List Node) : (cs.map copy).filter q = (cs.filter q).map copy := by
  rw [List.filter_map]
  exact congrArg (fun r => List.map copy (List.filter r cs)) (funext hq)

theorem operands_copy (n : Node) : n.copy.operands = n.operands.map copy := by
  rw [operands, children_copy, map_copy_filter isOperand_copy]
  rfl

theorem strip_copy (n : Node) : n.copy.strip = n.strip.copy := by
  induction n using Node.ind with
  | h n ih =>
      by_cases hone : n.is .parenthesizedExpression = true ∧ ∃ d, n.operands = [d]
      · obtain ⟨hk, d, hd⟩ := hone
        have hmem : d ∈ n.children := List.mem_of_mem_filter
          (show d ∈ n.operands by rw [hd]; exact List.mem_singleton.2 rfl)
        rw [strip_of_operands hk hd, strip_of_operands (d := d.copy)
          ((is_copy n _).trans hk) (by rw [operands_copy, hd]; rfl), ih d hmem]
      · rw [strip_of_no_operand (n := n) fun hk d hd => hone ⟨hk, d, hd⟩,
          strip_of_no_operand fun hk d hd => ?_]
        rw [operands_copy] at hd
        obtain ⟨e, he, -⟩ := List.map_eq_singleton_iff.1 hd
        exact hone ⟨(is_copy n _).symm.trans hk, e, he⟩

end Node

namespace Cursor

open Node in
/-- Parentheses come off a node as they come off a place. -/
theorem node_unparen (c : Cursor) : c.unparen.node = c.node.strip := by
  have hall : ∀ fuel, ∀ c : Cursor, c.node.size ≤ fuel →
      (unparenWithin fuel c).node = c.node.strip := by
    intro fuel
    induction fuel with
    | zero =>
        intro c hc
        have hpos := Node.size_le_of_mem_walk (Node.self_mem_walk c.node)
        obtain ⟨⟨i, k, b, r, l, t, cs, z⟩, above⟩ := c
        simp only [size] at hc
        omega
    | succ fuel ih =>
        intro c hc
        have hops : c.operands.map (·.node) = c.node.operands := map_node_operands c
        rcases unparenWithin_cases (fuel + 1) c with hu | ⟨d, fuel', hk, hd, hf, hu⟩
        · rw [hu, strip_of_no_operand fun hk d hd => ?_]
          -- one operand would be taken out
          rw [hd] at hops
          obtain ⟨e, he, rfl⟩ := List.map_eq_singleton_iff.1 hops
          have hmem := node_mem_of_mem_children (mem_children_of_mem_operands
            (show e ∈ c.operands by rw [he]; exact List.mem_singleton.2 rfl))
          have hk' : c.is .parenthesizedExpression = true := hk
          rw [unparenWithin, if_pos hk', he] at hu
          have hle := size_le_of_mem_walk (node_mem_walk (unparenWithin_mem_walk fuel e))
          have hlt := size_lt_of_mem_children hmem
          simp only at hu
          rw [hu] at hle
          omega
        · obtain rfl : fuel = fuel' := by omega
          rw [hd] at hops
          have hmem := node_mem_of_mem_children (mem_children_of_mem_operands
            (show d ∈ c.operands by rw [hd]; exact List.mem_singleton.2 rfl))
          have hlt := size_lt_of_mem_children hmem
          rw [hu, ih d (by omega)]
          exact (strip_of_operands hk hops.symm).symm
  exact hall _ c (Nat.le_refl _)

/-- Bare tokens and comments add nothing. -/
theorem effects_operands {n : Node} (h : n.Shaped) :
    n.children.flatMap Node.effects = n.operands.flatMap Node.effects := by
  have hall : ∀ c ∈ n.children, c.Formed := fun c hc =>
    (h.of_mem_children hc).formed
  rw [Node.operands]
  generalize n.children = cs at hall ⊢
  induction cs with
  | nil => rfl
  | cons c cs ih =>
      rw [List.flatMap_cons, List.filter_cons,
        ih fun d hd => hall d (List.mem_cons_of_mem _ hd)]
      cases hc : c.isOperand with
      | true => rw [if_pos rfl, List.flatMap_cons]
      | false =>
          rw [Node.effects_of_not_isOperand (hall c List.mem_cons_self) hc]
          rfl

theorem ownListed_of_kind {n : Node} {s : Symbol} (h : n.is s = true)
    (hs : s ∉ effectSymbols) : n.ownListed isEffectKind = [] := by
  have hk : n.kind = .symbol s := by simpa [Node.is] using h
  have hkind : n.kind.isAny effectSymbols = false := by
    rw [hk, Kind.isAny, List.any_eq_false]
    intro t ht hst
    have : s = t := by simpa using hst
    exact hs (this ▸ ht)
  rw [Node.ownListed, isEffectKind, hkind, Bool.and_false]
  rfl

theorem effects_unparenWithin (fuel : Nat) {c : Cursor} (h : c.node.Shaped) :
    (unparenWithin fuel c).node.effects = c.node.effects := by
  induction fuel generalizing c with
  | zero => rfl
  | succ fuel ih =>
      rcases unparenWithin_cases (fuel + 1) c with hu | ⟨d, fuel', hk, hd, hf, hu⟩
      · rw [hu]
      · obtain rfl : fuel = fuel' := by omega
        have hmem : d ∈ c.children :=
          mem_children_of_mem_operands (by rw [hd]; exact List.mem_singleton.2 rfl)
        rw [hu, ih (h.of_mem_children (node_mem_of_mem_children hmem)),
          Node.effects_eq c.node, ownListed_of_kind hk (by decide),
          effects_operands h, ← map_node_operands, hd]
        simp

/-- Parentheses have the effects of what they hold. -/
theorem effects_unparen {c : Cursor} (h : c.node.Shaped) :
    c.unparen.node.effects = c.node.effects :=
  effects_unparenWithin _ h

end Cursor

end Codemod
