/-
Values that become references.

What a method returns is a value. A property is a reference, and what
calls it, deletes it or writes to it acts on the object that it belongs
to. So in front of a call of its own a `prop` that is read as a property
makes a difference (`Rules.prop_reads_callee`).

No rule looks at what is around the call that it replaces. On the way up
from there the site stands in one child of each node
(`StandsFor.parent`), and of all constructs only the one that takes it as
a reference acts on another property afterwards
(`StandsFor.actsOn_exchange`). Main statement: `Rule.actsOn_after_read`.
-/
import Codemod.Proofs.Rule.Keeping
import Codemod.Proofs.Wrapper.Uses

namespace Codemod

open Node

namespace Node

-- ============================================================ references

/-- What stands in the role is called, deleted or written to. -/
def takes (n : Node) (role : Option Role) : Bool :=
  (n.is .callExpression && role == some .function)
  || (n.is .unaryExpression
      && (n.child? .operator).any (·.code == Text.ofString "delete")
      && role == some .argument)
  || (n.is .updateExpression && role == some .argument)
  || (n.isAny [.assignmentExpression, .augmentedAssignmentExpression, .assignmentPattern]
      && role == some .left)
  || (n.is .forInStatement && (n.child? .kind).isNone && role == some .left)
  || (n.is .pairPattern && role == some .value)
  || n.isAny [.arrayPattern, .restPattern]

/-- The kinds of construct that take references. -/
def takingSymbols : List Symbol := [
  .callExpression, .unaryExpression, .updateExpression, .assignmentExpression,
  .augmentedAssignmentExpression, .assignmentPattern, .forInStatement, .pairPattern,
  .arrayPattern, .restPattern]

theorem isAny_of_takes {n : Node} {role : Option Role} (h : n.takes role = true) :
    n.isAny takingSymbols = true := by
  by_contra hno
  simp only [isAny, takingSymbols, List.any_cons, List.any_nil, Bool.or_false,
    Bool.not_eq_true, Bool.or_eq_false_iff] at hno
  simp [takes, isAny, hno] at h

/-- The expression is a property of an object, which may stand in
parentheses. -/
def isProperty (n : Node) : Bool :=
  n.strip.isAny [.memberExpression, .subscriptExpression]

theorem isProperty_of_member {n : Node} (h : n.is .memberExpression = true) :
    n.isProperty = true := by
  have hstrip : n.strip = n := strip_of_no_operand fun hk => by
    rw [is_false_of_kind (is_iff.1 h) (by decide)] at hk
    cases hk
  rw [isProperty, hstrip]
  exact isAny_iff.2 ⟨_, List.mem_cons_self, is_iff.1 h⟩

/-- How many properties of objects the construct calls, deletes or writes
to. -/
def actsOn (n : Node) : Nat :=
  n.children.countP fun c => n.takes c.role && c.isProperty

end Node

/-- The construct takes the expression, which may stand in parentheses, as
a reference. -/
def Cursor.TakesReference (v c : Cursor) : Prop :=
  ∃ d ∈ v.children, v.node.takes d.node.role = true ∧ d.unparen = c

-- ======================================================== what is around it

namespace Cursor

variable {c d p v site : Cursor} {r : Node} {i : Nat}

/-- A node stands for what is around a site, the site itself exchanged:
it is a property where the site was taken out of its parentheses, and
otherwise if it was one before. -/
structure StandsFor (site d : Cursor) (r : Node) : Prop where
  holds : site ∈ d.walk
  role : r.role = d.node.role
  operand : d.node.isOperand = true ∧ r.isOperand = true
  notMute : d.node.isMute = false
  property : (d.unparen = site ∧ r.isProperty = true)
    ∨ (d.unparen ≠ site ∧ r.isProperty = d.node.isProperty)

section Upwards

variable {p n : Node} {up : List (Node × Nat)}

theorem mem_children_of_getElem? (up : List (Node × Nat)) (hi : p.children[i]? = some n) :
    (⟨n, (p, i) :: up⟩ : Cursor) ∈ (⟨p, up⟩ : Cursor).children :=
  mem_children.2 ⟨i, hi, rfl⟩

/-- Parentheses are either around the one place that is exchanged, or they
are left as they are. -/
theorem strip_exchange_cases (up : List (Node × Nat)) (hi : p.children[i]? = some n)
    (hop : n.isOperand = true ∧ r.isOperand = true) :
    ((⟨p, up⟩ : Cursor).unparen = (⟨n, (p, i) :: up⟩ : Cursor).unparen
        ∧ p.strip = n.strip ∧ (p.exchange i r).strip = r.strip)
      ∨ ((⟨p, up⟩ : Cursor).unparen = ⟨p, up⟩
        ∧ p.strip = p ∧ (p.exchange i r).strip = p.exchange i r) := by
  have hlength : (p.exchange i r).operands.length = p.operands.length :=
    (Node.filter_exchanged (Node.forall₂_set hi) (hop.2.trans hop.1.symm)).length_eq
  have hmap : (⟨p, up⟩ : Cursor).operands.map (·.node) = p.operands := map_node_operands _
  have hone {α : Type} {xs : List α} {x : α} (hx : x ∈ xs) (hl : xs.length = 1) :
      xs = [x] := by
    obtain ⟨y, rfl⟩ := List.length_eq_one_iff.1 hl
    rw [List.mem_singleton.1 hx]
  by_cases h : p.is .parenthesizedExpression = true ∧ p.operands.length = 1
  · obtain ⟨hk, hl⟩ := h
    have hn : p.operands = [n] :=
      hone (List.mem_filter.2 ⟨List.mem_of_getElem? hi, hop.1⟩) hl
    have hr : (p.exchange i r).operands = [r] := by
      refine hone (List.mem_filter.2 ⟨?_, hop.2⟩) (hlength.trans hl)
      obtain ⟨hlt, -⟩ := List.getElem?_eq_some_iff.1 hi
      exact List.mem_set hlt r
    have hd : (⟨p, up⟩ : Cursor).operands = [⟨n, (p, i) :: up⟩] :=
      hone (List.mem_filter.2 ⟨mem_children_of_getElem? up hi, hop.1⟩)
        (by rw [← hl, ← hmap, List.length_map])
    exact Or.inl ⟨unparen_of_operands hk hd, Node.strip_of_operands hk hn,
      Node.strip_of_operands hk hr⟩
  · have hno {xs : List Node} {x : Node} (hk : p.is .parenthesizedExpression = true)
        (hl : xs.length = p.operands.length) (hx : xs = [x]) : False :=
      h ⟨hk, by rw [← hl, hx]; rfl⟩
    refine Or.inr ⟨unparen_of_no_operand fun hk d hd => ?_,
      Node.strip_of_no_operand fun hk _ => hno hk rfl,
      Node.strip_of_no_operand fun hk _ => hno hk hlength⟩
    exact hno (x := d.node) hk rfl (by rw [← hmap, hd]; rfl)

/-- What is around a place stands for what is around the parent. -/
theorem StandsFor.parent (h : StandsFor site ⟨n, (p, i) :: up⟩ r) (hf : p.Formed)
    (hi : p.children[i]? = some n) : StandsFor site ⟨p, up⟩ (p.exchange i r) := by
  have hmem : n ∈ p.children := List.mem_of_getElem? hi
  have hop : p.isOperand = true := Node.isOperand_of_mem hf hmem
  have hwalk := mem_walk_of_mem_children (self_mem_walk _)
    (mem_children_of_getElem? up hi)
  refine ⟨mem_walk_trans hwalk h.holds, rfl, ⟨hop, hop⟩, ?_, ?_⟩
  · rw [Node.isMute, Bool.and_eq_false_iff, List.isEmpty_eq_false_iff]
    exact Or.inl (List.ne_nil_of_mem hmem)
  · rw [Node.isProperty, Node.isProperty]
    rcases strip_exchange_cases up hi h.operand with ⟨hu, hn, hr⟩ | ⟨hu, hn, hr⟩
    · rw [hu, hn, hr]
      exact h.property
    · rw [hu, hn, hr]
      refine Or.inr ⟨?_, rfl⟩
      rintro rfl
      have hle := Node.size_le_of_mem_walk (node_mem_walk h.holds)
      have hlt := Node.size_lt_of_mem_children hmem
      exact absurd hlt (Nat.not_lt.2 hle)

/-- What a construct takes as a reference does not depend on what stands
in its parts. -/
theorem takes_exchange (hf : p.Formed) (hi : p.children[i]? = some n)
    (hrole : r.role = n.role) (hmute : n.isMute = false) (role : Option Role) :
    (p.exchange i r).takes role = p.takes role := by
  have hmem : n ∈ p.children := List.mem_of_getElem? hi
  have hmuted {P : Prop} (h : n.isMute = true) : P := by
    rw [hmute] at h
    cases h
  unfold Node.takes
  rcases Node.child?_exchange hi hrole .kind with hkind | ⟨-, hn⟩
  · rcases Node.child?_exchange hi hrole .operator with hop | ⟨-, hn⟩
    · rw [hop, hkind]
      rfl
    · -- the operator of a unary expression is a bare token
      by_cases hu : p.is .unaryExpression = true
      · refine hmuted (((hf.parts _ _ (Node.is_iff.1 hu) rfl).others n hmem) ?_)
        rw [Node.standsIn, Node.role_of_child? hn]
        rfl
      · have hu : p.is .unaryExpression = false := by simpa using hu
        have hu' : (p.exchange i r).is .unaryExpression = false := hu
        rw [hkind, hu, hu']
        rfl
  · refine hmuted (hf.inPlace n hmem _ ?_)
    rw [Node.role_of_child? hn]
    rfl

/-- A construct that takes the site as a reference comes to act on one
property more, and any other on as many as before. -/
theorem StandsFor.actsOn_exchange (h : StandsFor site ⟨n, (p, i) :: up⟩ r) (hf : p.Formed)
    (hi : p.children[i]? = some n)
    (hsite : site.node.isAny [.memberExpression, .subscriptExpression] = false) :
    ((⟨p, up⟩ : Cursor).TakesReference site → (p.exchange i r).actsOn = p.actsOn + 1)
      ∧ (¬ (⟨p, up⟩ : Cursor).TakesReference site → (p.exchange i r).actsOn = p.actsOn) := by
  obtain ⟨hlt, hn⟩ := List.getElem?_eq_some_iff.1 hi
  have htakes : (⟨p, up⟩ : Cursor).TakesReference site
      ↔ p.takes n.role = true ∧ (⟨n, (p, i) :: up⟩ : Cursor).unparen = site := by
    constructor
    · rintro ⟨g, hg, ht, rfl⟩
      obtain rfl := eq_of_mem_children hg (mem_children_of_getElem? up hi)
        (unparen_mem_walk g) h.holds
      exact ⟨ht, rfl⟩
    · exact fun ⟨ht, hu⟩ => ⟨_, mem_children_of_getElem? up hi, ht, hu⟩
  have hcount : p.actsOn = p.actsOn - (if p.takes n.role && n.isProperty then 1 else 0)
      + (if p.takes n.role && n.isProperty then 1 else 0) := by
    split
    · next hq =>
        have hpos : 0 < p.actsOn :=
          List.countP_pos_iff.2 ⟨n, List.mem_of_getElem? hi, hq⟩
        omega
    · rfl
  have hafter : (p.exchange i r).actsOn
      = p.actsOn - (if p.takes n.role && n.isProperty then 1 else 0)
        + (if p.takes n.role && r.isProperty then 1 else 0) := by
    have hset : (p.exchange i r).actsOn
        = (p.children.set i r).countP fun c => p.takes c.role && c.isProperty := by
      unfold Node.actsOn
      simp only [takes_exchange hf hi h.role h.notMute]
      rfl
    rw [hset, List.countP_set hlt, hn, h.role]
    rfl
  rw [htakes, hafter]
  rcases h.property with ⟨hsame, hr⟩ | ⟨hne, hr⟩
  · have hno : n.isProperty = false := by
      rw [Node.isProperty, ← show (⟨n, (p, i) :: up⟩ : Cursor).node = n from rfl,
        ← node_unparen, hsame]
      exact hsite
    cases ht : p.takes n.role <;> simp [hsame, hr, hno]
  · rw [hr, ← hcount]
    exact ⟨fun ht => absurd ht.2 hne, fun _ => rfl⟩

end Upwards

theorem TakesReference.mem_walk (h : v.TakesReference site) : site ∈ v.walk := by
  obtain ⟨d, hd, -, rfl⟩ := h
  exact mem_walk_trans (mem_walk_of_mem_children (self_mem_walk v) hd) (unparen_mem_walk d)

/-- Everything outside of a place is still there when the place is
exchanged, and it acts on as many properties as before, save for the
construct that takes the site as a reference. -/
theorem StandsFor.exists_counterpart {n : Node} {above : List (Node × Nat)}
    (h : StandsFor site ⟨n, above⟩ r) (hplaced : PlacedIn n above)
    (hroot : (rootIn n above).Shaped)
    (hsite : site.node.isAny [.memberExpression, .subscriptExpression] = false)
    (hv : v ∈ (top (rootIn n above)).walk) (hout : v ∉ (⟨n, above⟩ : Cursor).walk) :
    ∃ m ∈ (plug above r).walk, m.id = v.node.id
      ∧ (v.TakesReference site → m.actsOn = v.node.actsOn + 1)
      ∧ (¬ v.TakesReference site → m.actsOn = v.node.actsOn) := by
  induction above generalizing n r with
  | nil => exact absurd hv hout
  | cons pi up ih =>
      obtain ⟨p, i⟩ := pi
      have hi : p.children[i]? = some n := hplaced.1
      have hf : p.Formed := formed_of_placedIn hplaced hroot _ List.mem_cons_self
      have hnew : p.exchange i r ∈ (plug up (p.exchange i r)).walk :=
        mem_walk_plug_self up hplaced.2
      by_cases hin : v ∈ (⟨p, up⟩ : Cursor).walk
      · rcases mem_walk_iff.1 hin with rfl | ⟨c, hc, hvc⟩
        · exact ⟨_, hnew, rfl, h.actsOn_exchange hf hi hsite⟩
        · -- another child of the parent, which is not touched
          have hne : c ≠ ⟨n, (p, i) :: up⟩ := by
            rintro rfl
            exact hout hvc
          obtain ⟨j, hj, ha⟩ := mem_children.1 hc
          have hji : i ≠ j := by
            rintro rfl
            refine hne ?_
            obtain ⟨m, above⟩ := c
            obtain rfl : above = (p, i) :: up := ha
            obtain rfl : n = m := Option.some.inj (hi.symm.trans hj)
            rfl
          have hchild : c.node ∈ (p.exchange i r).children :=
            List.mem_of_getElem? ((List.getElem?_set_ne hji).trans hj)
          refine ⟨v.node, Node.mem_walk_trans hnew
            (Node.mem_walk_of_child hchild (node_mem_walk hvc)), rfl,
            fun htakes => absurd ?_ hne, fun _ => rfl⟩
          exact eq_of_mem_children hc (mem_children_of_getElem? up hi)
            (mem_walk_trans hvc htakes.mem_walk) h.holds
      · exact ih (h.parent hf hi) hplaced.2 hroot hv hin

/-- The object of a member access is not taken as a reference. -/
theorem TakesReference.not_isChainFoldable {allowed : List Text}
    (h : v.TakesReference c) : c.isChainFoldable allowed = false := by
  obtain ⟨d, hd, ht, rfl⟩ := h
  obtain ⟨s, hs, hk⟩ := Node.isAny_iff.1 (Node.isAny_of_takes ht)
  have hne : ∀ s ∈ Node.takingSymbols,
      s ≠ .parenthesizedExpression ∧ s ≠ .memberExpression := by decide
  rw [Bool.eq_false_iff]
  intro hfold
  obtain ⟨p, hp, hmember⟩ := exists_member_of_isChainFoldable hfold
  rw [parent?_climb_unparen hd (Node.is_false_of_kind hk (hne s hs).1)] at hp
  obtain rfl := Option.some.inj hp
  have hno : v.is .memberExpression = false := Node.is_false_of_kind hk (hne s hs).2
  rw [hmember] at hno
  cases hno

end Cursor

-- ================================================================= rules

variable {context : RuleContext} {c m arg : Cursor} {name : Text} {methods : List String}
  {new : Node}

/-- What takes the place of a method call is a property of an element, or
the size of the window. -/
def ReadsProperty (context : RuleContext) (c : Cursor) (new : Node) : Prop :=
  ∃ m name target property, c.calledMember? = some (m, name)
    ∧ new = Build.member target property
    ∧ (m.HasElement context target
      ∨ target = Build.member (Build.identifier "document") "documentElement")

theorem MethodForm.readsProperty (hm : c.calledMember? = some (m, name))
    (h : MethodForm context c m name methods new) (hk : new.is .memberExpression = true) :
    ReadsProperty context c new := by
  cases h with
  | read _ _ _ ht => exact ⟨m, name, _, _, hm, rfl, Or.inl ht⟩
  | prop _ ht => exact ⟨m, name, _, _, hm, rfl, Or.inl ht⟩
  | size _ _ => exact ⟨m, name, _, _, hm, rfl, Or.inr rfl⟩
  | _ => exact absurd hk Bool.false_ne_true

theorem FactoryForm.isChainFoldable (h : FactoryForm context c arg new)
    (hk : new.is .memberExpression = true) :
    c.isChainFoldable context.transformableMembers = true := by
  cases h with
  | unwrap _ hfold => exact hfold
  | _ => exact absurd hk Bool.false_ne_true

theorem IdiomForm.not_isMember (h : IdiomForm c new) : new.is .memberExpression = false := by
  cases h with
  | @test _ _ _ _ _ _ _ _ negated => cases negated <;> rfl
  | @start _ _ _ _ _ negated => cases negated <;> rfl
  | _ => rfl

/-- A wrapper rule puts a member access in the place of a call by reading a
property, or where no reference is taken. -/
theorem WrapperForm.readsProperty_or (h : WrapperForm context c methods new)
    (hk : new.is .memberExpression = true) :
    (ReadsProperty context c new ∨ ∀ v : Cursor, ¬ v.TakesReference c)
      ∧ new.isOperand = true ∧ c.node.children ≠ [] := by
  have held {d : Cursor} (hd : d.Below c) : c.node.children ≠ [] := by
    obtain ⟨e, he, -⟩ := hd
    exact List.ne_nil_of_mem (Cursor.node_mem_of_mem_children he)
  cases h with
  | method _ hm hform =>
      have hreads := hform.readsProperty hm hk
      refine ⟨Or.inl hreads, ?_, held (Cursor.below_of_inner? (Cursor.calledMember?_eq_some hm).1)⟩
      obtain ⟨m, name, target, property, -, rfl, -⟩ := hreads
      rfl
  | @factory arg _ _ ha hform =>
      have hfold := hform.isChainFoldable hk
      have hmem : arg ∈ c.arguments := by rw [ha]; exact List.mem_singleton.2 rfl
      refine ⟨Or.inr fun v hv => ?_, ?_, held (Cursor.below_of_mem_arguments hmem)⟩
      · rw [hv.not_isChainFoldable] at hfold
        cases hfold
      · cases hform with
        | unwrap _ _ => exact Cursor.isOperand_of_mem_arguments hmem
        | _ => rfl
  | @inArray _ _ _ _ _ _ negated _ _ _ _ _ _ =>
      cases negated <;> exact absurd hk Bool.false_ne_true

/-- A built-in rule puts a member access in the place of a call by reading
a property, or where no reference is taken. -/
theorem Step.readsProperty_or {rule : Rule} (h : rule ∈ Registry.builtin.rules)
    {sweeps : List Sweep} (haction : rule.action = .sweeps sweeps) {s : Sweep}
    (hs : s ∈ sweeps) {k : Symbol} {w : Workspace} {r : Rewrite} {p : Cursor}
    (hstep : Step context.factoryNames k w r p)
    (hr : s.replacement context r.site = .ok (some r.new))
    (hk : r.new.is .memberExpression = true) :
    (ReadsProperty context r.site r.new ∨ ∀ v : Cursor, ¬ v.TakesReference r.site)
      ∧ r.new.isOperand = true ∧ r.site.node.children ≠ [] := by
  rcases hstep.form h haction hs hr with ⟨-, names, hform⟩ | ⟨-, hform⟩
  · exact hform.readsProperty_or hk
  · rw [hform.not_isMember] at hk
    cases hk

/-- After a call has been replaced by a member access, what is around it
acts on as many properties as before, save that what takes the call as a
reference acts on one more. -/
theorem Step.exists_counterpart {names : List Text} {k : Symbol} {w : Workspace}
    {r : Rewrite} {p v : Cursor} (h : Step names k w r p)
    (hcall : r.site.is .callExpression = true) (hnew : r.new.is .memberExpression = true)
    (hop : r.new.isOperand = true) (hheld : r.site.node.children ≠ [])
    (hv : v ∈ (Cursor.top w.program).walk) (hout : v ∉ r.site.walk) :
    ∃ m ∈ (w.after r p).program.walk, m.id = v.node.id
      ∧ (v.TakesReference r.site → m.actsOn = v.node.actsOn + 1)
      ∧ (¬ v.TakesReference r.site → m.actsOn = v.node.actsOn) := by
  obtain ⟨hplaced, -⟩ := Cursor.mem_walk_top.1 h.mem
  have hcopy : (w.inserted p.node r.site.node r.new).1.copy
      = (Workspace.fitted p.node r.site.node r.new).copy := copy_number _ _
  -- a member access needs no parentheses
  have hfitted : (Workspace.fitted p.node r.site.node r.new).is .memberExpression = true := by
    have hno : needsParentheses r.new.kind p.node.kind r.site.node.role = false := by
      rw [is_iff.1 hnew]
      rfl
    rw [Workspace.fitted, hno]
    exact hnew
  have hmember : (w.inserted p.node r.site.node r.new).1.is .memberExpression = true := by
    rw [← is_copy, hcopy, is_copy, hfitted]
  have hstands : Cursor.StandsFor r.site r.site (w.inserted p.node r.site.node r.new).1 := by
    obtain ⟨c, hc⟩ := List.exists_mem_of_ne_nil _ hheld
    refine ⟨Cursor.self_mem_walk _, ?_, ⟨?_, ?_⟩, ?_, Or.inl ⟨h.unparen_site, ?_⟩⟩
    · exact (Workspace.role_number _ _).trans (Workspace.role_fitted _ _ _)
    · exact isOperand_of_mem (h.sound.stands h.mem).node.formed hc
    · rw [← isOperand_copy, hcopy, isOperand_copy, isOperand_fitted hop]
    · rw [isMute, Bool.and_eq_false_iff, List.isEmpty_eq_false_iff]
      exact Or.inl hheld
    · exact isProperty_of_member hmember
  rw [h.program_after]
  refine hstands.exists_counterpart hplaced ?_ ?_ ?_ hout
  · rw [Workspace.rootIn_eq h.mem]
    exact h.sound.shaped
  · exact isAny_false_of_kind hcall (by decide)
  · rw [Workspace.rootIn_eq h.mem]
    exact hv

/-- Where a built-in rule puts a member access in the place of a call, it
reads a property, or nothing takes the call as a reference. The rule does
not look at what is around the call: what takes it as a reference acts on
one property more afterwards, and all else that is around it on as many as
before. -/
theorem Rule.actsOn_after_read {rule : Rule} (h : rule ∈ Registry.builtin.rules)
    {source : Text} {n : Node} (hn : parse source = .ok n) {r : Rewrite}
    (hr : r ∈ rule.rewrites context (.ofProgram n))
    (hcall : r.site.is .callExpression = true) (hnew : r.new.is .memberExpression = true) :
    (ReadsProperty context r.site r.new ∨ ∀ v : Cursor, ¬ v.TakesReference r.site)
    ∧ ∃ k w p, Step context.factoryNames k w r p
      ∧ ∀ v ∈ (Cursor.top w.program).walk, v ∉ r.site.walk →
        ∃ m ∈ (w.after r p).program.walk, m.id = v.node.id
          ∧ (v.TakesReference r.site → m.actsOn = v.node.actsOn + 1)
          ∧ (¬ v.TakesReference r.site → m.actsOn = v.node.actsOn) := by
  obtain ⟨sweeps, haction, s, hs, hs', k, w, p, hstep, -⟩ :=
    Rule.exists_step_of_mem_rewrites h (parse_sound hn) hr
  obtain ⟨hreads, hop, hheld⟩ := hstep.readsProperty_or h haction hs hs' hnew
  exact ⟨hreads, k, w, p, hstep, fun v => hstep.exists_counterpart hcall hnew hop hheld⟩

namespace Rules

/-- A property whose value is stored: the assignment takes no
reference. -/
theorem contentAccessors_reads_value :
    contentAccessors ∈ Registry.builtin.rules
      ∧ ∃ n r, parse (Text.ofString "x = $(el).val();") = .ok n
        ∧ r ∈ contentAccessors.rewrites .default (.ofProgram n)
        ∧ r.site.is .callExpression = true ∧ r.new.is .memberExpression = true
        ∧ (ReadsProperty .default r.site r.new ∨ ∀ v : Cursor, ¬ v.TakesReference r.site)
        ∧ ∃ k w p, Step RuleContext.default.factoryNames k w r p
          ∧ ∀ v ∈ (Cursor.top w.program).walk, v ∉ r.site.walk →
            ∃ m ∈ (w.after r p).program.walk, m.id = v.node.id
              ∧ (v.TakesReference r.site → m.actsOn = v.node.actsOn + 1)
              ∧ (¬ v.TakesReference r.site → m.actsOn = v.node.actsOn) := by
  have hrule : contentAccessors ∈ Registry.builtin.rules := by simp [Registry.builtin]
  obtain ⟨n, hn, h⟩ := exists_of_parse_any (Text.ofString "x = $(el).val();")
    (fun n => (contentAccessors.rewrites .default (.ofProgram n)).any fun r =>
      r.site.is .callExpression && r.new.is .memberExpression) (by decide +kernel)
  obtain ⟨r, hr, h⟩ := List.any_eq_true.1 h
  obtain ⟨hcall, hnew⟩ := Bool.and_eq_true_iff.1 h
  exact ⟨hrule, n, r, hn, hr, hcall, hnew,
    Rule.actsOn_after_read hrule hn hr hcall hnew⟩

/-- A function that `prop` has returned is called on its own; as a property
of the element it is called on the element. -/
theorem prop_reads_callee :
    prop ∈ Registry.builtin.rules
      ∧ ∃ n r v, parse (Text.ofString "$(el).prop(\"handler\")();") = .ok n
        ∧ r ∈ prop.rewrites .default (.ofProgram n)
        ∧ r.site.is .callExpression = true ∧ r.new.is .memberExpression = true
        ∧ v ∈ (Cursor.top n).walk ∧ v.is .callExpression = true
        ∧ v.TakesReference r.site
        ∧ (prop.apply .default (.ofProgram n)).1.render
          = Text.ofString "el.handler();" := by
  have hrule : prop ∈ Registry.builtin.rules := by simp [Registry.builtin]
  obtain ⟨n, hn, h⟩ := exists_of_parse_any
    (Text.ofString "$(el).prop(\"handler\")();")
    (fun n => (prop.rewrites .default (.ofProgram n)).head?.any (fun r =>
        r.site.is .callExpression && r.new.is .memberExpression
        && (Cursor.top n).walk.any fun v => v.is .callExpression
          && v.children.any fun d => v.node.takes d.node.role && d.unparen.same r.site)
      && (prop.apply .default (.ofProgram n)).1.render == Text.ofString "el.handler();")
    (by decide +kernel)
  simp only [Bool.and_eq_true, Option.any_eq_true, List.any_eq_true, beq_iff_eq] at h
  obtain ⟨⟨r, hhead, ⟨hcall, hnew⟩, v, hv, hk, d, hd, ht, hsame⟩, hrender⟩ := h
  have hsite : r.site ∈ (Cursor.top n).walk :=
    Rule.site_mem_of_head?_rewrites hrule (parse_sound hn) hhead
  have hdw : d.unparen ∈ (Cursor.top n).walk := Cursor.mem_walk_trans
    (Cursor.mem_walk_of_mem_children hv hd) (Cursor.unparen_mem_walk d)
  exact ⟨hrule, n, r, v, hn, List.mem_of_head? hhead, hcall, hnew, hv, hk,
    ⟨d, hd, ht, Cursor.eq_of_same (parse_identified hn) hdw hsite hsame⟩, hrender⟩

end Rules

end Codemod
