/-
Names that stand for wrappers.

A name of which a method is called is an alias if the report declares it in
the nearest of its scopes that declares it at all with an initializer that
wraps a name, as in `var x = $(y)` (`isAlias`). The analysis agrees: a name
that resolves to such an initializer is an alias (`Cursor.isAlias_of_resolve?`),
and a name is none where its binding wraps nothing (`Cursor.isAlias_of_settled`),
which holds of names that are taken for elements or arrays and of names that
mean the same elsewhere as these.
-/
import Codemod.Proofs.Rule.Scopes

namespace Codemod

open Node

namespace Use

/-- A name is declared. -/
def isDeclaration : Use → Bool
  | .declares _ _ _ => true
  | _ => false

/-- The name is declared in the scope. -/
def declaresIn (t : Text) (i : Option Nat) : Use → Bool
  | .declares s j _ => s == t && j == i
  | _ => false

/-- The name is declared in the scope with an initializer that wraps a
name. -/
def wrapsIn (t : Text) (i : Option Nat) : Use → Bool
  | .declares s j b => s == t && j == i && b
  | _ => false

theorem isDeclaration_of_declaresIn {t : Text} {i : Option Nat} {u : Use}
    (h : u.declaresIn t i = true) : u.isDeclaration = true := by
  cases u with
  | declares s j b => rfl
  | _ => cases h

theorem isDeclaration_of_wrapsIn {t : Text} {i : Option Nat} {u : Use}
    (h : u.wrapsIn t i = true) : u.isDeclaration = true := by
  cases u with
  | declares s j b => rfl
  | _ => cases h

end Use

/-- By what is declared, the name stands for a wrapper of a name in the
scopes around it. -/
def isAlias (us : List Use) (fs : List Frame) (t : Text) : Bool :=
  match fs.find? fun f => us.any (·.declaresIn t f.id) with
  | some f => us.any (·.wrapsIn t f.id)
  | none => false

section Lookup

variable {us : List Use} {t : Text} {i : Option Nat} {f : Frame} {fs : List Frame}

theorem any_declaresIn :
    us.any (·.declaresIn t i) = true ↔ ∃ b, Use.declares t i b ∈ us := by
  rw [List.any_eq_true]
  constructor
  · rintro ⟨u, hu, h⟩
    cases u with
    | declares s j b =>
        simp only [Use.declaresIn, Bool.and_eq_true, beq_iff_eq] at h
        obtain ⟨rfl, rfl⟩ := h
        exact ⟨b, hu⟩
    | _ => cases h
  · rintro ⟨b, hu⟩
    exact ⟨_, hu, by simp [Use.declaresIn]⟩

theorem any_wrapsIn : us.any (·.wrapsIn t i) = true ↔ Use.declares t i true ∈ us := by
  rw [List.any_eq_true]
  constructor
  · rintro ⟨u, hu, h⟩
    cases u with
    | declares s j b =>
        simp only [Use.wrapsIn, Bool.and_eq_true, beq_iff_eq] at h
        obtain ⟨⟨rfl, rfl⟩, rfl⟩ := h
        exact hu
    | _ => cases h
  · exact fun hu => ⟨_, hu, by simp [Use.wrapsIn]⟩

theorem isAlias_cons : isAlias us (f :: fs) t
    = if us.any (·.declaresIn t f.id) then us.any (·.wrapsIn t f.id)
      else isAlias us fs t := by
  unfold isAlias
  rw [List.find?_cons]
  cases us.any (·.declaresIn t f.id) <;> rfl

/-- Where the same is declared and no more is wrapped, no other names stand
for wrappers. -/
theorem isAlias_of_weaker {vs : List Use}
    (hd : ∀ i, us.any (·.declaresIn t i) = vs.any (·.declaresIn t i))
    (hw : ∀ i, us.any (·.wrapsIn t i) = true → vs.any (·.wrapsIn t i) = true)
    (h : isAlias us fs t = true) : isAlias vs fs t = true := by
  induction fs with
  | nil => cases h
  | cons f fs ih =>
      rw [isAlias_cons] at h ⊢
      rw [← hd]
      split at h
      · next hany =>
          rw [if_pos hany]
          exact hw f.id h
      · next hany =>
          rw [if_neg hany]
          exact ih h

end Lookup

namespace Cursor

variable {n : Node} {u c use s init : Cursor} {t : Text} {b : Bool}
  {ds : List Declaration} {ss : List Cursor}

/-- The declarations that bind a name wrap nothing, and one of them is of a
plain name. -/
def Settled (binding : Option (Cursor × List Declaration)) : Prop :=
  ∀ s ds, binding = some (s, ds) → (∃ x ∈ ds, x.IsPlain)
    ∧ ∀ x ∈ ds, holdsElement x = false → ∀ init, x.init = some init →
      init.node.wraps = false

theorem settled_none : Settled none := nofun

-- =============================================================== looking up

theorem exists_mem_inScope
    (h : Use.declares t s.node.id b ∈ n.uses ⟨.plain, 0, []⟩) :
    ∃ x ∈ inScope ((top n).declarationsOf t) s, b = true → holdsElement x = false
      ∧ ∃ init, x.init = some init ∧ init.node.wraps = true := by
  obtain ⟨x, hx, hname, ⟨r, hr, hid⟩, hwraps⟩ := exists_declaration h
  refine ⟨x, List.mem_filter.2 ⟨List.mem_filter.2 ⟨hx, by simpa using hname⟩, ?_⟩, hwraps⟩
  simp [hr, same, hid]

theorem not_declaresIn_of_inScope (h : inScope ((top n).declarationsOf t) s = []) :
    (n.uses ⟨.plain, 0, []⟩).any (·.declaresIn t s.node.id) = false := by
  rw [Bool.eq_false_iff]
  intro hany
  obtain ⟨b, hb⟩ := any_declaresIn.1 hany
  obtain ⟨x, hx, -⟩ := exists_mem_inScope hb
  rw [h] at hx
  cases hx

/-- A name that is declared in none of the scopes is no alias. -/
theorem isAlias_of_lookUp_none (h : lookUp ((top n).declarationsOf t) ss = none) :
    isAlias (n.uses ⟨.plain, 0, []⟩) (ss.map frame) t = false := by
  induction ss with
  | nil => rfl
  | cons r ss ih =>
      rw [lookUp] at h
      split at h
      · next hnil =>
          rw [List.map_cons, isAlias_cons, show (frame r).id = r.node.id from rfl,
            not_declaresIn_of_inScope hnil, if_neg Bool.false_ne_true]
          exact ih h
      · cases h

/-- A plain name is an alias if it is declared as one where it is found. -/
theorem isAlias_of_lookUp (hn : n.Identified)
    (h : lookUp ((top n).declarationsOf t) ss = some (s, ds))
    (hplain : ∃ x ∈ ds, x.IsPlain) : isAlias (n.uses ⟨.plain, 0, []⟩) (ss.map frame) t
      = (n.uses ⟨.plain, 0, []⟩).any (·.wrapsIn t s.node.id) := by
  induction ss with
  | nil => cases h
  | cons r ss ih =>
      have hframe : (frame r).id = r.node.id := rfl
      rw [lookUp] at h
      rw [List.map_cons, isAlias_cons, hframe]
      split at h
      · next hnil =>
          rw [not_declaresIn_of_inScope hnil, if_neg Bool.false_ne_true]
          exact ih h
      · obtain ⟨rfl, rfl⟩ := Prod.mk.inj (Option.some.inj h)
        obtain ⟨x, hx, hplain⟩ := hplain
        obtain ⟨hmem, hscope⟩ := List.mem_filter.1 hx
        obtain ⟨hmem, hname⟩ := List.mem_filter.1 hmem
        split at hscope
        · next q hq =>
            obtain ⟨b, hb, -⟩ := exists_declares hn hmem hq hplain
            rw [show q.node.id = r.node.id by simpa [same] using hscope,
              show x.name = t by simpa using hname] at hb
            rw [if_pos (any_declaresIn.2 ⟨b, hb⟩)]
        · cases hscope

/-- A name whose binding wraps nothing is no alias. -/
theorem isAlias_of_settled (hn : n.Identified) (hu : u ∈ (top n).walk)
    (h : Settled (u.binding? t)) :
    isAlias (n.uses ⟨.plain, 0, []⟩) (u.scopeChain.map frame) t = false := by
  cases hb : u.binding? t with
  | none =>
      rw [binding?, declarationsOf_eq hu] at hb
      exact isAlias_of_lookUp_none hb
  | some found =>
      obtain ⟨s, ds⟩ := found
      obtain ⟨hplain, hno⟩ := h s ds hb
      rw [binding?, declarationsOf_eq hu] at hb
      rw [isAlias_of_lookUp hn hb hplain, Bool.eq_false_iff]
      intro hwraps
      obtain ⟨x, hx, hw⟩ := exists_mem_inScope (any_wrapsIn.1 hwraps)
      obtain ⟨helement, init, hinit, hw⟩ := hw rfl
      rw [← found_of_lookUp hb] at hx
      rw [hno x hx helement init hinit] at hw
      cases hw

/-- A name that resolves to what wraps a name is an alias. -/
theorem isAlias_of_resolve? (hn : n.Identified) (hu : u ∈ (top n).walk)
    (h : u.resolve? t = some init) (hw : init.node.wraps = true) :
    isAlias (n.uses ⟨.plain, 0, []⟩) (u.scopeChain.map frame) t = true := by
  obtain ⟨s, x, hb, hinit, target, htarget, hsame⟩ := declaration_of_resolve? h
  have hplain : x.IsPlain := Or.inl ⟨init, target, hinit, htarget, hsame⟩
  rw [binding?, declarationsOf_eq hu] at hb
  rw [isAlias_of_lookUp hn hb ⟨x, List.mem_singleton_self x, hplain⟩, any_wrapsIn]
  have hx : x ∈ inScope ((top n).declarationsOf t) s := by
    rw [← found_of_lookUp hb]
    exact List.mem_singleton_self x
  obtain ⟨hmem, hscope⟩ := List.mem_filter.1 hx
  obtain ⟨hmem, hname⟩ := List.mem_filter.1 hmem
  split at hscope
  · next q hq =>
      obtain ⟨b, hb, hwraps⟩ := exists_declares hn hmem hq hplain
      rw [hwraps init hinit, hw, show q.node.id = s.node.id by simpa [same] using hscope,
        show x.name = t by simpa using hname] at hb
      exact hb
  · cases hscope

-- =========================================================== what is settled

/-- The callee of what wraps a name is an identifier. -/
theorem exists_callee_of_wraps (h : c.node.wraps = true) :
    c.unparen.is .callExpression = true
      ∧ ∃ g, c.unparen.child? .function = some g ∧ g.is .identifier = true := by
  rw [wraps, ← node_unparen] at h
  simp only [Bool.and_eq_true, map_node_child?_eq, Option.any_map,
    Option.any_eq_true] at h
  obtain ⟨⟨hk, g, hg, hident⟩, -⟩ := h
  exact ⟨hk, g, hg, hident⟩

theorem inner?_of_identifier {g : Cursor} (hg : c.child? .function = some g)
    (hident : g.is .identifier = true) : c.inner? .function = some g := by
  rw [inner?, hg, Option.map_some, unparen_of_identifier hident]

/-- What calls a member access wraps no name. -/
theorem wraps_of_callee {m : Cursor} (hm : c.unparen.inner? .function = some m)
    (hk : m.is .identifier = false) : c.node.wraps = false := by
  rw [Bool.eq_false_iff]
  intro h
  obtain ⟨-, g, hg, hident⟩ := exists_callee_of_wraps h
  rw [inner?_of_identifier hg hident, Option.some.injEq] at hm
  rw [← hm, hident] at hk
  cases hk

theorem settled_of_resolve? (h : u.resolve? t = some init)
    (hw : init.node.wraps = false) : Settled (u.binding? t) := by
  obtain ⟨s, x, hb, hinit, target, htarget, hsame⟩ := declaration_of_resolve? h
  intro r ds hds
  rw [hb, Option.some.injEq, Prod.mk.injEq] at hds
  obtain ⟨rfl, rfl⟩ := hds
  refine ⟨⟨x, List.mem_singleton_self x, Or.inl ⟨init, target, hinit, htarget, hsame⟩⟩,
    ?_⟩
  intro y hy _ init' hinit'
  obtain rfl := List.mem_singleton.1 hy
  rw [hinit, Option.some.injEq] at hinit'
  rw [← hinit', hw]

/-- What denotes an element wraps no name. -/
theorem wraps_of_isElementWithin {fuel : Nat} (h : isElementWithin fuel c = true) :
    c.node.wraps = false := by
  cases fuel with
  | zero => cases h
  | succ fuel =>
      by_cases hk : c.unparen.is .callExpression = true
      · rw [isElementWithin_of_call hk, callsElementMethod] at h
        split at h
        · next m hm =>
            rw [Bool.and_eq_true, Bool.and_eq_true] at h
            exact wraps_of_callee hm
              (Node.is_false_of_kind (Node.is_iff.1 h.1.1) (by decide))
        · cases h
      · rw [Bool.eq_false_iff]
        exact fun hw => hk (exists_callee_of_wraps hw).1

theorem lookUp_ne_nil (h : lookUp ds ss = some (s, [])) : False := by
  induction ss with
  | nil => cases h
  | cons r ss ih =>
      rw [lookUp] at h
      split at h
      · exact ih h
      · next hne =>
          obtain ⟨-, h⟩ := Prod.mk.inj (Option.some.inj h)
          exact hne h

/-- A name that denotes an element is settled. -/
theorem settled_of_isElementWithin {fuel : Nat} (hk : c.unparen.is .identifier = true)
    (h : isElementWithin fuel c = true) : Settled (c.unparen.binding? c.unparen.code) := by
  cases fuel with
  | zero => cases h
  | succ fuel =>
      cases hr : c.unparen.resolve? c.unparen.code with
      | some init =>
          rw [isElementWithin_of_name hk hr, Bool.and_eq_true] at h
          exact settled_of_resolve? hr (wraps_of_isElementWithin h.2)
      | none =>
          have hthis : c.unparen.is .thisExpr = false :=
            Node.is_false_of_kind (Node.is_iff.1 hk) (by decide)
          simp only [isElementWithin, hthis, Bool.false_eq_true, if_false, hk, if_true,
            hr] at h
          intro s ds hb
          split at h
          · cases h
          · simp only [hb, List.all_eq_true] at h
            refine ⟨?_, fun x hx hno => by rw [h x hx] at hno; cases hno⟩
            cases ds with
            | nil => exact (lookUp_ne_nil hb).elim
            | cons x ds =>
                exact ⟨x, List.mem_cons_self, Or.inr (h x List.mem_cons_self)⟩

/-- An array literal and what array methods return wrap no name. -/
theorem wraps_of_isArrayWithin {known : Cursor → Bool} {fuel : Nat}
    (h : isArrayWithin known fuel c = true) : c.node.wraps = false := by
  cases fuel with
  | zero => cases h
  | succ fuel =>
      rw [Bool.eq_false_iff]
      intro hw
      obtain ⟨hk, g, hg, hident⟩ := exists_callee_of_wraps hw
      have hne : ∀ s ≠ Symbol.callExpression, c.unparen.is s = false :=
        fun s hs => Node.is_false_of_kind (Node.is_iff.1 hk) hs.symm
      have hname : g.node.propertyName? = none := by
        have hmember : g.node.is .memberExpression = false :=
          Node.is_false_of_kind (Node.is_iff.1 hident) (by decide)
        rw [propertyName?, hmember]
        rfl
      have hinner := inner?_of_identifier hg hident
      have hreceiver : c.unparen.methodReceiver? arrayMethods = none := by
        simp [methodReceiver?, hk, hinner, hname]
      have hfactory : c.unparen.isArrayFactoryCall = false := by
        simp [isArrayFactoryCall, hinner, hname]
      rw [isArrayWithin] at h
      simp [hne .array (by decide), hne .identifier (by decide), hfactory, hreceiver] at h

/-- A name that holds an array is settled. -/
theorem settled_of_isDenseName (h : u.isDenseName = true) :
    Settled (u.binding? u.code) := by
  unfold isDenseName at h
  split at h
  · next init s hr hs =>
      rw [Bool.and_eq_true] at h
      exact settled_of_resolve? hr (wraps_of_isArrayWithin h.1)
  · cases h

/-- A name that means the same in another place is settled there. -/
theorem settled_of_isStableName (hc : c ∈ (top n).walk) (hu : use ∈ (top n).walk)
    (hs : Settled (c.binding? t)) (h : c.isStableName use t = true) :
    Settled (use.binding? t) := by
  intro s ds hb
  unfold isStableName at h
  split at h
  · cases h
  simp only [bindingScope?, hb, Option.map_some] at h
  split at h
  · cases h
  next hsame =>
  cases hhere : c.binding? t with
  | none => simp [hhere, sameScope] at hsame
  | some found =>
      obtain ⟨r, es⟩ := found
      simp only [hhere, Option.map_some, sameScope, Bool.not_eq_true',
        Bool.not_eq_false] at hsame
      have hfound : ds = es := by
        rw [binding?, declarationsOf_eq hu] at hb
        rw [binding?, declarationsOf_eq hc] at hhere
        rw [found_of_lookUp hb, found_of_lookUp hhere]
        have hid : r.node.id = s.node.id := by simpa [same] using hsame
        simp only [inScope, same, hid]
      rw [hfound]
      exact hs r es hhere

/-- A name that is global is settled. -/
theorem settled_of_isGlobal (h : c.isGlobal t = true) : Settled (c.binding? t) := by
  rw [isGlobal, Bool.and_eq_true, Option.isNone_iff_eq_none] at h
  rw [h.1]
  exact settled_none

/-- A call of the factory on a name or `this` wraps a name. -/
theorem wraps_of_isFactoryCall {names : List Text} {a : Cursor}
    (hf : init.isFactoryCall names = .ok true) (ha : init.unparen.arguments = [a])
    (href : a.node.isReference = true) : init.node.wraps = true := by
  obtain ⟨f, hcallee, hident, -, -⟩ := isFactoryCall_callee hf
  obtain ⟨hk, -⟩ := isFactoryCall_spec hf
  have hargs : (init.unparen.child? .arguments).any (fun l =>
      l.node.is .arguments && l.node.operands.any isReference) = true := by
    unfold Cursor.arguments at ha
    split at ha
    · next l hl =>
        split at ha
        · next hlk =>
            rw [hl, Option.any_some, Bool.and_eq_true, ← map_node_operands, ha]
            exact ⟨hlk, by simpa using href⟩
        · cases ha
    · cases ha
  rw [wraps, ← node_unparen, map_node_child?_eq, map_node_child?_eq, hcallee,
    Option.any_map, Option.any_map, Option.any_some, Bool.and_eq_true, Bool.and_eq_true]
  exact ⟨⟨hk, hident⟩, hargs⟩

end Cursor

end Codemod
