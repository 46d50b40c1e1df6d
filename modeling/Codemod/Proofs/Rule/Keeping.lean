/-
What rewrites that spend no method do to a program.

Such a rewrite puts in nothing that opens a scope and is new
(`KeepingForm.every_anchored`), and nothing that wraps a name
(`Step.calm_of_call`), save inside a member access. So the program declares
afterwards what it did, and no name becomes an alias (`Step.isAlias_after`);
whatever else it uses has been traded at the one place (`Step.tally_after`).
-/
import Codemod.Proofs.Rule.Steady
import Codemod.Proofs.Rule.Trade
import Codemod.Proofs.Tree.Forest

namespace Codemod

open Cursor Node

-- ================================================================ anchored

namespace Node

variable {n e : Node} {p : Place}

/-- If the node can be a scope around something, it has an identity. -/
def Anchored (n : Node) : Prop := n.holdsScope = true → n.id.isSome

theorem lenient_anchored : Lenient Anchored where
  placed _ _ _ h := h
  built n _ hn h := by
    rcases hn with hn | hn
    · rw [holdsScope, hn, List.isEmpty_nil, Bool.not_true, Bool.and_false] at h
      cases h
    · rw [isNotable, h] at hn
      cases hn

/-- Numbers make no difference to what is used where no scope gets one. -/
theorem uses_number (h : n.Every Anchored) (k : Nat) :
    (n.number k).1.uses p = n.uses p := by
  have hplace : p.Alike Eq 0 0 p :=
    ⟨rfl, ⟨p.depth, by omega, by omega⟩, List.forall₂_same.2 fun _ _ => ⟨rfl, rfl⟩⟩
  have hsame := uses_alike hplace (alike_number (J := Eq) (fun _ => rfl) h k)
  refine (List.forall₂_eq_eq_eq ▸ hsame.imp fun u v huv => ?_ :).symm
  cases huv with
  | receiver t hfs => rw [Frame.eq_of_alike hfs]
  | declares t b hij => rw [hij]
  | called t k => rfl
  | _ => rfl

end Node

section Forms

variable {context : RuleContext} {c m arg : Cursor} {name : Text} {new : Node}

/-- What keeps its method opens no scope that is new. -/
theorem KeepingForm.every_anchored (hc : c.Stands) (hm : c.calledMember? = some (m, name))
    (h : KeepingForm context c m name new) (hsite : c.node.Every Anchored) :
    new.Every Anchored := by
  have hQ := lenient_anchored
  have htarget : ∀ {target}, m.HasElement context target → target.Every Anchored := by
    rintro target ⟨o, ho, helement⟩
    have hmem := ((below_of_object hm ho).of_mem_walk (unparen_mem_walk o)).mem_walk
    exact helement.every hQ (hc.of_mem_walk hmem) (hsite.of_cursor hmem)
  have harg : ∀ a ∈ c.arguments, a.node.Every Anchored := fun a ha =>
    hsite.of_cursor (mem_walk_of_mem_arguments ha)
  cases h with
  | tell ht =>
      exact hQ.every_methodCall (htarget ht) (List.forall_mem_map.2 harg)
  | ask ht hargs _ =>
      refine hQ.every_call hQ.every_identifier (List.forall_mem_singleton.2
        (hQ.every_methodCall (htarget ht) (List.forall_mem_singleton.2 (harg _ ?_))))
      rw [hargs]
      exact List.mem_singleton.2 rfl
  | lend _ _ hargs _ =>
      rw [hargs, List.forall_mem_cons] at harg
      exact hQ.every_methodCall harg.1 (List.forall_mem_map.2 harg.2)

end Forms

-- ==================================================================== calm

namespace Node

variable {n parent old : Node} {r : Option Role} {l : Text}

theorem strip_of_call (hk : n.is .callExpression = true) : n.strip = n :=
  strip_of_no_operand fun h => by
    rw [is_false_of_kind (is_iff.1 hk) (by decide)] at h
    cases h

theorem isReference_of_call (hk : n.is .callExpression = true) : n.isReference = false := by
  rw [isReference, strip_of_call hk]
  exact isAny_false_of_kind hk (by decide)

theorem wraps_placed_of_call (hk : n.is .callExpression = true) :
    (n.placed r l).wraps = n.wraps := by
  have hplaced : (n.placed r l).is .callExpression = true := hk
  rw [wraps, wraps, strip_of_call hk, strip_of_call hplaced]
  rfl

theorem isOperand_fitted (h : n.isOperand = true) :
    (Workspace.fitted parent old n).isOperand = true := by
  unfold Workspace.fitted
  simp only
  split
  · rfl
  · exact h

/-- Fitted in, a call wraps what it did, and is no reference. -/
theorem fitted_of_call (hk : n.is .callExpression = true) (hop : n.isOperand = true) :
    (Workspace.fitted parent old n).wraps = n.wraps
      ∧ (Workspace.fitted parent old n).isReference = false
      ∧ ∃ s ∈ [Symbol.callExpression, .parenthesizedExpression],
        (Workspace.fitted parent old n).is s = true := by
  have hplaced : ∀ r l, (n.placed r l).is .callExpression = true := fun _ _ => hk
  unfold Workspace.fitted
  simp only
  split
  · have hstrip : ((Build.parenthesized n).placed old.role old.lead).strip
        = n.placed none [] := by
      have hop : (n.placed none []).isOperand = true := hop
      rw [strip_of_operands (d := n.placed none []) rfl, strip_of_call (hplaced _ _)]
      rw [operands, show ((Build.parenthesized n).placed old.role old.lead).children
        = [token "(", n.placed none [], token ")"] from rfl, List.filter_cons_of_neg (by decide),
        List.filter_cons_of_pos hop, List.filter_cons_of_neg (by decide), List.filter_nil]
    refine ⟨?_, ?_, .parenthesizedExpression, by decide, rfl⟩
    · rw [wraps, hstrip, ← wraps_placed_of_call hk, wraps, strip_of_call (hplaced _ _)]
    · rw [isReference, hstrip]
      exact isAny_false_of_kind (hplaced _ _) (by decide)
  · exact ⟨wraps_placed_of_call hk, isReference_of_call (hplaced _ _), .callExpression,
      by decide, hplaced _ _⟩

end Node

namespace Build

variable {o e : Node} {t : Text} {args : List Node}

theorem wraps_methodCall : (methodCall o t args).wraps = false := by
  have hcallee : (operand (member o t) .callExpression .function).is .identifier = false := by
    unfold operand
    split <;> rfl
  have hchild : (methodCall o t args).child? .function = some
      (inRole (operand (member o t) .callExpression .function) .function) := rfl
  rw [wraps, strip_of_call rfl, hchild, Option.any_some,
    show ∀ n, (inRole n .function).is .identifier = n.is .identifier from fun _ => rfl,
    hcallee, Bool.and_false, Bool.false_and]

theorem wraps_rewrap (hk : e.is .callExpression = true) : (rewrap t e).wraps = false := by
  have hchild : (rewrap t e).child? .arguments = some
      (inRole (arguments [e]) .arguments) := rfl
  have hplaced : (e.placed none []).is .callExpression = true := hk
  have hargs : ((inRole (arguments [e]) .arguments).operands.any isReference) = false := by
    rw [Bool.eq_false_iff]
    intro h
    obtain ⟨a, ha, href⟩ := List.any_eq_true.1 h
    obtain ⟨hmem, hop⟩ := List.mem_filter.1 ha
    have hmem : a ∈ [token "(", e.placed none [], token ")"] := hmem
    simp only [List.mem_cons, List.not_mem_nil, or_false] at hmem
    rcases hmem with rfl | rfl | rfl
    · cases hop
    · rw [isReference_of_call hplaced] at href
      cases href
    · cases hop
  rw [wraps, strip_of_call rfl, hchild, Option.any_some, hargs, Bool.and_false,
    Bool.and_false]

end Build

section Forms

variable {context : RuleContext} {c m arg : Cursor} {name : Text} {new : Node}

/-- What keeps its method is a call that wraps no name. -/
theorem KeepingForm.wraps (h : KeepingForm context c m name new) :
    new.is .callExpression = true ∧ new.wraps = false := by
  cases h with
  | tell _ => exact ⟨rfl, Build.wraps_methodCall⟩
  | ask _ _ _ => exact ⟨rfl, Build.wraps_rewrap rfl⟩
  | lend _ _ _ _ => exact ⟨rfl, Build.wraps_methodCall⟩

theorem KeepingForm.isWhole (h : KeepingForm context c m name new) : new.IsWhole := by
  cases h <;> exact isWhole_of_kind (s := .callExpression) rfl rfl (by decide)

/-- Nor does what comes for a call of the factory wrap a name, save inside a
member access. -/
theorem FactoryForm.wraps (hc : c.Placed) (h : FactoryForm context c arg new) :
    (new.is .callExpression = true ∧ new.wraps = false) ∨ Inside c.above := by
  cases h with
  | unwrap _ hfold => exact Or.inr (inside_of_isChainFoldable hc hfold)
  | _ => exact Or.inl ⟨rfl, Build.wraps_methodCall⟩

end Forms

-- =================================================================== steps

/-- What the rewrite puts in uses what it takes out uses, without what is
lost and with what is gained, and neither opens a scope nor wraps a name. -/
structure Rewrite.Trades (r : Rewrite) (w : Workspace) (p : Cursor)
    (lost gained : List Use) : Prop where
  whole : r.new.IsWhole
  anchored : r.new.Every Anchored
  calm : Calm (w.inserted p.node r.site.node r.new).1 r.site.node ∨ Inside r.site.above
  trades : r.new.Trades r.site lost gained

theorem any_iff_weigh {q : Use → Bool} {us : List Use} :
    us.any q = true ↔ weigh (fun u => (q u).toNat) us ≠ 0 := by
  induction us with
  | nil => simp
  | cons u us ih =>
      rw [List.any_cons, weigh_cons, Bool.or_eq_true, ih]
      cases q u <;> simp

section Weaker

variable {us vs : List Use} {t : Text} {i : Option Nat}

theorem any_declaresIn_of_weaker (h : List.Forall₂ Use.Weaker us vs) :
    us.any (·.declaresIn t i) = vs.any (·.declaresIn t i) := by
  induction h with
  | nil => rfl
  | cons hab _ ih =>
      rw [List.any_cons, List.any_cons, ih]
      cases hab <;> rfl

theorem any_wrapsIn_of_weaker (h : List.Forall₂ Use.Weaker us vs)
    (hw : us.any (·.wrapsIn t i) = true) : vs.any (·.wrapsIn t i) = true := by
  induction h with
  | nil => exact hw
  | cons hab _ ih =>
      rw [List.any_cons, Bool.or_eq_true] at hw ⊢
      refine hw.imp (fun ha => ?_) ih
      cases hab with
      | refl _ => exact ha
      | declares s j himp =>
          simp only [Use.wrapsIn, Bool.and_eq_true] at ha ⊢
          exact ⟨ha.1, himp ha.2⟩

end Weaker

section Steps

variable {context : RuleContext} {names : List Text} {k : Symbol} {w : Workspace}
  {r : Rewrite} {p m arg : Cursor} {name : Text} {lost gained : List Use} {f : Use → Nat}

namespace Step

theorem root_site (h : Step names k w r p) : r.site.root.node = w.program := by
  rw [root_of_mem_walk h.mem]
  rfl

/-- To what is around it a call that wraps no name introduces no more. -/
theorem calm_of_call (h : Step names k w r p) (hk : r.site.is .callExpression = true)
    (hheld : r.site.node.children ≠ []) (hwhole : r.new.IsWhole)
    (hnew : r.new.is .callExpression = true) (hw : r.new.wraps = false) :
    Calm (w.inserted p.node r.site.node r.new).1 r.site.node := by
  obtain ⟨c, hc⟩ := List.exists_mem_of_ne_nil _ hheld
  have hcopy : (w.inserted p.node r.site.node r.new).1.copy
      = (Workspace.fitted p.node r.site.node r.new).copy := copy_number _ _
  obtain ⟨hwraps, href, s, hs, hkind⟩ :
      (Workspace.fitted p.node r.site.node r.new).wraps = r.new.wraps
        ∧ (Workspace.fitted p.node r.site.node r.new).isReference = false
        ∧ ∃ s ∈ [Symbol.callExpression, .parenthesizedExpression],
          (Workspace.fitted p.node r.site.node r.new).is s = true :=
    fitted_of_call hnew hwhole.operand
  refine Node.calm_of_call (s := s) ?_ hs hk ?_ ⟨?_, ?_⟩ hheld ?_ ?_
  · rw [← is_copy, hcopy, is_copy, hkind]
  · exact (Workspace.role_number _ _).trans (Workspace.role_fitted _ _ _)
  · rw [← isOperand_copy, hcopy, isOperand_copy, isOperand_fitted hwhole.operand]
  · exact isOperand_of_mem (h.sound.stands h.mem).node.formed hc
  · rw [← wraps_copy, hcopy, wraps_copy, hwraps, hw]
  · rw [← isReference_copy, hcopy, isReference_copy, href]

theorem anchored_site (h : Step names k w r p) : r.site.node.Every Anchored :=
  fun m hm _ => h.sound.isSome m (mem_walk_trans (Cursor.node_mem_walk h.mem) hm)

/-- A rewrite that keeps the name of its method trades what lightens the
program. -/
theorem trades_of_keeping (h : Step names k w r p) (hk : r.site.is .callExpression = true)
    (hm : r.site.calledMember? = some (m, name))
    (hform : KeepingForm context r.site m name r.new) (hspent : isSpent name = false) :
    ∃ lost gained, r.Trades w p lost gained
      ∧ Lightens (w.program.uses ⟨.plain, 0, []⟩) lost gained := by
  have hstands := h.sound.stands h.mem
  have hid : r.site.root.node.Identified := by
    rw [h.root_site]
    exact identified_of_ids h.sound.isSome h.sound.nodup
  obtain ⟨lost, gained, htrades, hlightens⟩ := hform.trades hstands hid hk hm hspent
  rw [h.root_site] at hlightens
  obtain ⟨hnew, hwraps⟩ := hform.wraps
  obtain ⟨g, hg, -⟩ := exists_function hm
  exact ⟨lost, gained, ⟨hform.isWhole, hform.every_anchored hstands hm h.anchored_site,
    Or.inl (h.calm_of_call hk (List.ne_nil_of_mem (node_mem_of_mem_children
      (mem_children_of_child? hg))) hform.isWhole hnew hwraps), htrades⟩, hlightens⟩

/-- So does a rewrite of a call of the factory. -/
theorem trades_of_factory (h : Step names k w r p)
    (hf : r.site.isFactoryCall context.factoryNames = .ok true)
    (ha : r.site.arguments = [arg]) (hform : FactoryForm context r.site arg r.new) :
    ∃ lost gained, r.Trades w p lost gained
      ∧ Lightens (w.program.uses ⟨.plain, 0, []⟩) lost gained := by
  have hstands := h.sound.stands h.mem
  have hu : r.site.unparen = r.site := h.unparen_site
  obtain ⟨hk, -⟩ := isFactoryCall_spec hf
  obtain ⟨g, hg, -⟩ := isFactoryCall_callee hf
  rw [hu] at hk hg
  obtain ⟨lost, gained, htrades, hlightens⟩ := hform.trades hstands hu hf ha
  have hcalm : Calm (w.inserted p.node r.site.node r.new).1 r.site.node
      ∨ Inside r.site.above :=
    (hform.wraps hstands.placed).imp_left fun ⟨hnew, hwraps⟩ =>
      h.calm_of_call hk (List.ne_nil_of_mem (node_mem_of_mem_children
        (mem_children_of_child? hg))) (hform.isWhole ha) hnew hwraps
  exact ⟨lost, gained, ⟨hform.isWhole ha, hform.every lenient_anchored ha h.anchored_site, hcalm,
    htrades⟩, hlightens⟩

/-- A rewrite that trades changes the weight of the program by what is lost
and gained. -/
theorem tally_after (h : Step names k w r p) (ht : r.Trades w p lost gained)
    (hf : Gentle f r.site) (hd : ∀ t s b, f (.declares t s b) = 0) :
    AtMost f ((w.after r p).program.weight f 0 [] + weigh f lost)
      (w.program.weight f 0 [] + weigh f gained) := by
  obtain ⟨rest, hold, hnew⟩ := h.exists_rest hd ht.whole fun q => by
    rw [tally, tally, Workspace.inserted, uses_number (lenient_anchored.every_fitted ht.anchored)]
  have hle := ht.trades f hf
  rw [hold, hnew]
  exact ⟨by have := hle.le; omega, fun hflat => by have := hle.eq hflat; omega⟩

/-- Where neither what is lost nor what is gained declares a name, a rewrite
that trades declares what was declared. -/
theorem any_uses_inserted (ht : r.Trades w p lost gained)
    (hno : ∀ u ∈ lost ++ gained, u.isDeclaration = false) {q : Use → Bool}
    (hq : ∀ u, q u = true → u.isDeclaration = true) :
    ((w.inserted p.node r.site.node r.new).1.uses r.site.place).any q
      = (r.site.node.uses r.site.place).any q := by
  have hzero : ∀ u : Use, u.isDeclaration = false → (q u).toNat = 0 := fun u hu => by
    rw [Bool.toNat_eq_zero, Bool.eq_false_iff]
    intro hqu
    cases (hq u hqu).symm.trans hu
  have hplain : ∀ us ⊆ lost ++ gained, weigh (fun u => (q u).toNat) us = 0 := fun us hus =>
    weigh_eq_zero fun u hu => hzero u (hno u (hus hu))
  have hgentle : Gentle (fun u => (q u).toNat) r.site :=
    ⟨fun _ _ => hzero _ rfl, fun _ _ _ _ => (hzero _ rfl).le.trans (Nat.zero_le _),
      fun _ _ => hzero _ rfl⟩
  have hfitted : (Workspace.fitted p.node r.site.node r.new).tally
      (fun u => (q u).toNat) r.site.place
        = r.new.tally (fun u => (q u).toNat) r.site.place :=
    Workspace.tally_fitted ht.whole
  have heq := (ht.trades _ hgentle).eq
    ⟨fun _ => hzero _ rfl, fun _ _ _ => (hzero _ rfl).trans (hzero _ rfl).symm⟩
  rw [hplain _ (List.subset_append_left _ _), hplain _ (List.subset_append_right _ _),
    Nat.add_zero, Nat.add_zero, ← hfitted] at heq
  rw [Bool.eq_iff_iff, any_iff_weigh, any_iff_weigh, Workspace.inserted,
    uses_number (lenient_anchored.every_fitted ht.anchored)]
  unfold tally at heq
  rw [heq]

/-- No name becomes an alias by it. -/
theorem isAlias_after (h : Step names k w r p) (ht : r.Trades w p lost gained)
    (hno : ∀ u ∈ lost ++ gained, u.isDeclaration = false) {fs : List Frame} {t : Text}
    (halias : isAlias ((w.after r p).program.uses ⟨.plain, 0, []⟩) fs t = true) :
    isAlias (w.program.uses ⟨.plain, 0, []⟩) fs t = true := by
  obtain ⟨before, before', after, after', hbefore, hafter, hold, hnew⟩ :=
    h.uses_after ht.calm
  refine isAlias_of_weaker (fun i => ?_) (fun i => ?_) halias
  · rw [hold, hnew, List.any_append, List.any_append, List.any_append, List.any_append,
      any_declaresIn_of_weaker hbefore, any_declaresIn_of_weaker hafter,
      any_uses_inserted ht hno fun _ => Use.isDeclaration_of_declaresIn]
  · rw [hold, hnew, List.any_append, List.any_append, List.any_append, List.any_append,
      any_uses_inserted ht hno fun _ => Use.isDeclaration_of_wrapsIn]
    simp only [Bool.or_eq_true]
    exact Or.imp (any_wrapsIn_of_weaker hbefore) (Or.imp_right (any_wrapsIn_of_weaker hafter))

end Step

end Steps

end Codemod
