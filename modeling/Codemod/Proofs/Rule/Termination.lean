/-
No run of the rules is endless.

What the rules have left to do in a program is measured by what it uses
(`Node.burden`): by the methods that rules spend, then by templates in the
place of arguments, by names that stand for wrappers, by calls of
identifiers, by arguments, and last by its statements. A rewrite that
spends its method takes off the first of these, and one that does not
takes off another without adding to those before it
(`Step.burden_lt_of_trades`). The directives that are dropped use nothing.

So every turn of a rule takes something off (`Rule.run_burden`). There is
no endless run, and a rule that reports a change has made one: what a
program is measured by does not depend on identities
(`Node.burden_of_copy`).
-/
import Mathlib.Data.Prod.Lex
import Mathlib.Order.WellFounded
import Codemod.Proofs.Rule.Attachment
import Codemod.Proofs.Rule.Keeping

namespace Codemod

open Cursor Node Relation

-- ================================================================ burden

/-- Templates in the place of arguments. -/
def tagging : Use → Nat
  | .tagged => 1
  | _ => 0

/-- Names that stand for wrappers, by what is declared. -/
def aliasing (us : List Use) : Use → Nat
  | .receiver fs t => (isAlias us fs t).toNat
  | _ => 0

/-- Arguments. -/
def arity : Use → Nat
  | .argument => 1
  | _ => 0

/-- What the rules have left to do in a program, the weightiest first. -/
def Node.burden (n : Node) : Nat ×ₗ Nat ×ₗ Nat ×ₗ Nat ×ₗ Nat ×ₗ Nat :=
  let us := n.uses ⟨.plain, 0, []⟩
  toLex (weigh price us, toLex (weigh tagging us, toLex (weigh (aliasing us) us,
    toLex (weigh calling us, toLex (weigh arity us, n.children.length)))))

theorem toLex_lt_of_le {β : Type} [LT β] {a a' : Nat} {b b' : β} (ha : a ≤ a')
    (h : a < a' ∨ b < b') : toLex (a, b) < toLex (a', b') := by
  rw [Prod.Lex.toLex_lt_toLex]
  rcases h with h | h
  · exact Or.inl h
  · exact (Nat.lt_or_eq_of_le ha).imp_right fun heq => ⟨heq, h⟩

-- ============================================================= identities

section Alike

variable {J : Option Nat → Option Nat → Prop} {us vs : List Use} {fs gs : List Frame}
  {t : Text}

theorem weigh_eq {f g : Use → Nat} {R : Use → Use → Prop} (h : List.Forall₂ R us vs)
    (hR : ∀ u v, R u v → f u = g v) : weigh f us = weigh g vs :=
  Nat.le_antisymm (weigh_le h fun u v huv => (hR u v huv).le)
    (weigh_le h.flip fun u v hvu => (hR v u hvu).ge)

/-- Where scopes correspond one to one, so do the names that stand for
wrappers. -/
theorem isAlias_alike (hJ : ∀ i j i' j', J i j → J i' j' → (i = i' ↔ j = j'))
    (h : List.Forall₂ (Use.Alike J 0 0) us vs)
    (hf : List.Forall₂ (Frame.Alike J) fs gs) : isAlias us fs t = isAlias vs gs t := by
  have hany : ∀ {i j}, J i j →
      us.any (·.declaresIn t i) = vs.any (·.declaresIn t j)
        ∧ us.any (·.wrapsIn t i) = vs.any (·.wrapsIn t j) := by
    intro i j hij
    induction h with
    | nil => exact ⟨rfl, rfl⟩
    | cons huv _ ih =>
        rw [List.any_cons, List.any_cons, List.any_cons, List.any_cons, ih.1, ih.2]
        cases huv with
        | @declares i' j' s b hij' =>
            have hsame : (i' == i) = (j' == j) := by
              rw [Bool.eq_iff_iff, beq_iff_eq, beq_iff_eq]
              exact hJ _ _ _ _ hij' hij
            rw [Use.declaresIn, Use.declaresIn, Use.wrapsIn, Use.wrapsIn, hsame]
            exact ⟨rfl, rfl⟩
        | _ => exact ⟨rfl, rfl⟩
  induction hf with
  | nil => rfl
  | cons hfg _ ih =>
      obtain ⟨hdeclares, hwraps⟩ := hany hfg.id
      rw [isAlias_cons, isAlias_cons, hdeclares, hwraps, ih]

end Alike

theorem mem_zip_iff_of_nodup {α β : Type} {l : List α} {l' : List β} (hl : l.Nodup)
    (hl' : l'.Nodup) {a a' : α} {b b' : β} (h : (a, b) ∈ l.zip l')
    (h' : (a', b') ∈ l.zip l') : a = a' ↔ b = b' := by
  obtain ⟨i, hi, hab⟩ := List.mem_iff_getElem.1 h
  obtain ⟨j, hj, hab'⟩ := List.mem_iff_getElem.1 h'
  rw [List.getElem_zip, Prod.mk.injEq] at hab hab'
  obtain ⟨rfl, rfl⟩ := hab
  obtain ⟨rfl, rfl⟩ := hab'
  rw [hl.getElem_inj_iff, hl'.getElem_inj_iff]

/-- Identities have no part in what is left to do. -/
theorem Node.burden_of_copy {n m : Node} (hn : n.Identified) (hm : m.Identified)
    (h : n.copy = m.copy) : n.burden = m.burden := by
  let J := fun i j => (i, j) ∈ (n.walk.map (·.id)).zip (m.walk.map (·.id))
  have hJ : ∀ i j i' j', J i j → J i' j' → (i = i' ↔ j = j') := fun _ _ _ _ =>
    mem_zip_iff_of_nodup hn.nodup hm.nodup
  have halike : n.Alike J m := alike_of_copy h.symm fun x hx _ => by
    show _ ∈ List.zip _ _
    rw [List.zip_map]
    exact List.mem_map_of_mem hx
  have huses : List.Forall₂ (Use.Alike J 0 0) (n.uses ⟨.plain, 0, []⟩)
      (m.uses ⟨.plain, 0, []⟩) := uses_alike ⟨rfl, ⟨0, rfl, rfl⟩, .nil⟩ halike
  have hweigh : ∀ {f : Use → Nat}, (∀ t fs gs, f (.receiver fs t) = f (.receiver gs t)) →
      (∀ t b i j, f (.declares t i b) = f (.declares t j b)) →
      weigh f (n.uses ⟨.plain, 0, []⟩) = weigh f (m.uses ⟨.plain, 0, []⟩) := fun hr hd =>
    weigh_eq huses fun u v huv => by
      cases huv with
      | receiver t _ => exact hr t _ _
      | declares t b _ => exact hd t b _ _
      | _ => rfl
  have halias : weigh (aliasing (n.uses ⟨.plain, 0, []⟩)) (n.uses ⟨.plain, 0, []⟩)
      = weigh (aliasing (m.uses ⟨.plain, 0, []⟩)) (m.uses ⟨.plain, 0, []⟩) := by
    refine weigh_eq huses fun u v huv => ?_
    cases huv with
    | receiver t hfs => exact congrArg Bool.toNat (isAlias_alike hJ huses hfs)
    | _ => rfl
  have hlength : n.children.length = m.children.length := by
    have hcs := congrArg (List.length ∘ children) h
    simpa [children_copy] using hcs
  simp only [burden]
  rw [hweigh (f := price) (fun _ _ _ => rfl) fun _ _ _ _ => rfl,
    hweigh (f := tagging) (fun _ _ _ => rfl) fun _ _ _ _ => rfl, halias,
    hweigh (f := calling) (fun _ _ _ => rfl) fun _ _ _ _ => rfl,
    hweigh (f := arity) (fun _ _ _ => rfl) fun _ _ _ _ => rfl, hlength]

-- ================================================================== turns

section Turns

variable {context : RuleContext} {names : List Text} {k : Symbol} {w w' : Workspace}
  {r : Rewrite} {p : Cursor} {us lost gained : List Use}

theorem Use.not_isDeclaration_of_isPassing {u : Use} (h : u.isPassing = true) :
    u.isDeclaration = false := by
  cases u with
  | declares _ _ _ => cases h
  | _ => rfl

theorem Lightens.isPassing (h : Lightens us lost gained) :
    ∀ u ∈ gained, u.isPassing = true := by
  cases h with
  | template _ => exact List.forall_mem_nil _
  | name _ hgained => exact hgained
  | call _ hgained _ => exact hgained
  | argument => exact List.forall_mem_nil _

/-- What is gained counts where calls and arguments do. -/
theorem Lightens.weigh_gained (h : Lightens us lost gained) {f : Use → Nat}
    (hf : ∀ u : Use, u.isPassing = true → f u = 0) : weigh f gained = 0 :=
  weigh_eq_zero fun u hu => hf u (h.isPassing u hu)

/-- What is lost counts for more. -/
theorem Lightens.weighs (h : Lightens us lost gained) : 1 ≤ weigh tagging lost
    ∨ ((∀ u ∈ lost ++ gained, u.isDeclaration = false)
      ∧ (1 ≤ weigh (aliasing us) lost ∨ weigh calling gained < weigh calling lost
        ∨ (weigh calling gained ≤ weigh calling lost
          ∧ weigh arity gained < weigh arity lost))) := by
  have hgained : ∀ u ∈ gained, u.isDeclaration = false := fun u hu =>
    Use.not_isDeclaration_of_isPassing (h.isPassing u hu)
  rw [List.forall_mem_append]
  cases h with
  | template hmem =>
      exact Or.inl (List.single_le_sum (fun _ _ => Nat.zero_le _) _ (List.mem_map_of_mem hmem))
  | name halias _ =>
      refine Or.inr ⟨⟨List.forall_mem_singleton.2 rfl, hgained⟩, Or.inl ?_⟩
      simp [aliasing, halias]
  | @call t d us' _ hargs _ hle =>
      have hlost : ∀ u ∈ us', u.isDeclaration = false := fun u hu => by
        rw [List.mem_singleton.1 (hargs hu)]
        rfl
      refine Or.inr ⟨⟨List.forall_mem_cons.2 ⟨rfl, hlost⟩, hgained⟩, Or.inr (Or.inl ?_)⟩
      rw [weigh_cons, calling]
      omega
  | argument =>
      refine Or.inr ⟨⟨by simp [Use.isDeclaration], hgained⟩, Or.inr (Or.inr ⟨?_, ?_⟩)⟩
      · exact Nat.zero_le _
      · simp [arity]

/-- A rewrite that spends something leaves less to do. -/
theorem Step.burden_lt_of_spends (h : Step names k w r p) (hwhole : r.new.IsWhole)
    (hspends : r.new.Spends 1 r.site) : (w.after r p).program.burden < w.program.burden :=
  toLex_lt_of_le (Nat.le_of_succ_le (h.worth_after hwhole hspends))
    (Or.inl (h.worth_after hwhole hspends))

/-- So does a rewrite that lightens the program. -/
theorem Step.burden_lt_of_trades (h : Step names k w r p) (hsite : r.site.isScope = false)
    (ht : r.Trades w p lost gained)
    (hl : Lightens (w.program.uses ⟨.plain, 0, []⟩) lost gained) :
    (w.after r p).program.burden < w.program.burden := by
  have hid : w.program.Identified := identified_of_ids h.sound.isSome h.sound.nodup
  unfold burden
  generalize hus : w.program.uses ⟨.plain, 0, []⟩ = us at hl
  generalize hus' : (w.after r p).program.uses ⟨.plain, 0, []⟩ = us'
  have hgentle : ∀ {f : Use → Nat}, (∀ t, f (.method t) = 0) →
      (∀ t d, f (.called t d) = 0) → (∀ fs t, f (.receiver fs t) = 0) →
      Gentle f r.site := fun hm hcall hr =>
    ⟨fun t _ => hm t, fun t d e _ => by rw [hcall, hcall], fun t _ => hr _ t⟩
  have hprice : Gentle price r.site :=
    ⟨fun _ => price_of_not_isSpent, fun _ _ _ _ => Nat.le_refl 0, fun _ _ => rfl⟩
  have halias : Gentle (aliasing us) r.site := by
    refine ⟨fun _ _ => rfl, fun _ _ _ _ => Nat.le_refl 0, fun t hs => ?_⟩
    rw [aliasing, ← hus, ← map_frame_scopeChain hsite, isAlias_of_settled hid h.mem hs]
    rfl
  have hcalling : Gentle calling r.site :=
    ⟨fun _ _ => rfl, fun _ _ _ hde => Nat.succ_le_succ hde, fun _ _ => rfl⟩
  have hafter : ∀ {f : Use → Nat}, Gentle f r.site → (∀ t s b, f (.declares t s b) = 0) →
      weigh f us' + weigh f lost ≤ weigh f us + weigh f gained := fun hf hd => by
    rw [← hus, ← hus']
    exact (h.tally_after ht hf hd).le
  have hworth := hafter hprice fun _ _ _ => rfl
  have htagging := hafter (f := tagging)
    (hgentle (fun _ => rfl) (fun _ _ => rfl) fun _ _ => rfl) fun _ _ _ => rfl
  have haliasing := hafter halias fun _ _ _ => rfl
  have hcalling := hafter hcalling fun _ _ _ => rfl
  have harity := hafter (f := arity)
    (hgentle (fun _ => rfl) (fun _ _ => rfl) fun _ _ => rfl) fun _ _ _ => rfl
  rw [hl.weigh_gained fun u hu => by cases u <;> first | rfl | cases hu] at hworth htagging haliasing
  refine toLex_lt_of_le (by omega) (Or.inr ?_)
  rcases hl.weighs with hlost | ⟨hno, hlost⟩
  · exact toLex_lt_of_le (by omega) (Or.inl (by omega))
  -- what is an alias afterwards was one before
  have hmore : weigh (aliasing us') us' ≤ weigh (aliasing us) us' := by
    refine weigh_le (R := Eq) (List.forall₂_same.2 fun _ _ => rfl) fun u v huv => ?_
    subst huv
    cases u with
    | receiver fs t =>
        refine Bool.toNat_le_toNat fun ha => ?_
        rw [← hus'] at ha
        rw [← hus]
        exact h.isAlias_after ht hno ha
    | _ => exact Nat.le_refl _
  refine toLex_lt_of_le (by omega) (Or.inr ?_)
  rcases hlost with hlost | hlost | ⟨hcalls, hlost⟩
  · exact toLex_lt_of_le (by omega) (Or.inl (by omega))
  · exact toLex_lt_of_le (by omega) (Or.inr (toLex_lt_of_le (by omega) (Or.inl (by omega))))
  · exact toLex_lt_of_le (by omega) (Or.inr (toLex_lt_of_le (by omega)
      (Or.inr (toLex_lt_of_le (by omega) (Or.inl (by omega))))))

theorem Step.call_or_binary (h : Step names k w r p) :
    r.site.is .callExpression = true ∨ r.site.is .binaryExpression = true := by
  have hk := h.kind
  rcases List.mem_pair.1 h.symbol with rfl | rfl
  · exact Or.inl hk
  · exact Or.inr hk

/-- A rewrite by a rule for wrappers leaves less to do. -/
theorem Step.burden_lt_of_wrapper {methods : List String} (h : Step names k w r p)
    (hform : WrapperForm context r.site methods r.new)
    (hcalls : methods ≠ [] → r.site.node.Calls methods) :
    (w.after r p).program.burden < w.program.burden := by
  have hstands := h.sound.stands h.mem
  have hkind := h.call_or_binary
  obtain ⟨site, new⟩ := r
  change WrapperForm context site methods new at hform
  cases hform with
  | @method m name _ _ hne hm hform =>
      have hk := is_callExpression_of_calledMember? hstands.node hkind hm
      have hname := isOneOf_of_calls (hcalls hne) hm
      cases hspent : isSpent name with
      | true =>
          have hspends := hform.spends hstands hk hm hname
          rw [Text.spent, if_pos hspent] at hspends
          exact h.burden_lt_of_spends hform.isWhole hspends
      | false =>
          obtain ⟨lost, gained, ht, hl⟩ :=
            h.trades_of_keeping hk hm (hform.keeping hname hspent) hspent
          exact h.burden_lt_of_trades (isScope_of_kind hk (by decide)) ht hl
  | factory hf ha hform =>
      obtain ⟨hk, -⟩ := isFactoryCall_spec hf
      rw [h.unparen_site] at hk
      obtain ⟨lost, gained, ht, hl⟩ := h.trades_of_factory hf ha hform
      exact h.burden_lt_of_trades (isScope_of_kind hk (by decide)) ht hl
  | inArray hcmp hk hm _ _ hargs =>
      exact h.burden_lt_of_spends (Build.isWhole_negatedIf _
        (isWhole_of_kind (s := .callExpression) rfl rfl (by decide)))
        (hcmp.inArray_spends hstands.node hk hm hargs)

theorem Step.burden_lt_of_idiom (h : Step names k w r p) (hform : IdiomForm r.site r.new) :
    (w.after r p).program.burden < w.program.burden :=
  h.burden_lt_of_spends hform.isWhole
    (hform.spends (h.sound.stands h.mem).node h.call_or_binary)

end Turns

/-- What is left to do has become less. -/
def Lighter (w w' : Workspace) : Prop :=
  w'.Sound ∧ w'.program.burden < w.program.burden

-- ============================================================= directives

namespace Rules

variable {n : Node} {w : Workspace} {d : Nat} {fs : List Frame}

/-- A directive uses nothing. -/
theorem uses_of_isUseStrict (hs : n.Shaped) (h : isUseStrict n = .ok true) :
    n.uses ⟨.plain, d, fs⟩ = [] := by
  unfold isUseStrict at h
  split at h
  · cases h
  next hd =>
  split at h
  · next e he =>
      obtain ⟨v, hv, hvalue⟩ := bind_eq_ok.1 h
      obtain rfl : v = some (Text.ofString "use strict") := by
        simpa [pure_eq_ok] using hvalue
      rw [Bool.not_eq_true, Bool.not_eq_false', isDirective, Bool.and_eq_true] at hd
      rw [uses_eq, use_plain, declared_of_kind hd.1 (by decide), List.append_nil,
        List.append_nil, List.flatMap_eq_nil_iff]
      intro c hc
      rw [Place.below_of_kind (h := n.head) hd.1 (by decide)]
      cases hop : c.isOperand with
      | true =>
          have hce : c ∈ n.operands := List.mem_filter.2 ⟨hc, hop⟩
          rw [he, List.mem_singleton] at hce
          rw [hce] at hc ⊢
          exact uses_of_stringValue (hs.of_mem_children hc) hv
      | false => rw [uses_of_not_isOperand (hs.of_mem_children hc).formed hop, use_plain]
  · cases h

/-- A statement that uses nothing is not missed. -/
theorem uses_dropHandingLead {m : Node} {i : Nat} (hp : n.is .program = true)
    (hm : n.children.find? (·.id == some i) = some m)
    (hnil : ∀ fs, m.uses ⟨.plain, 0, fs⟩ = []) :
    ({ n with children := dropHandingLead i n.children } : Node).uses ⟨.plain, 0, []⟩
      = n.uses ⟨.plain, 0, []⟩ := by
  have hne : ∀ s ≠ Symbol.program, n.head.is s = false := fun s hne =>
    Head.is_false hp hne.symm
  have hfun : n.head.isFunction = false := Head.isAny_false hp (by decide)
  have hbelow : ∀ r, (Place.mk .plain 0 []).below n.head r
      = ⟨.plain, 0, (Place.mk .plain 0 []).framesBelow n.head⟩ := fun r => by
    simp [Place.below, hne, hfun]
  generalize hq : ({ n with children := dropHandingLead i n.children } : Node) = q
  have hhead : q.head = n.head := by rw [← hq]; rfl
  have hqp : q.is .program = true := by rw [← hq]; exact hp
  have hcs : q.children = dropHandingLead i n.children := by rw [← hq]
  rw [uses_eq, uses_eq _ n, hhead, hcs, declared_of_kind hqp (by decide),
    declared_of_kind hp (by decide)]
  simp only [hbelow]
  rw [flatMap_dropHandingLead uses_placed hm (hnil _)]

/-- Without a directive a program has less left to do. -/
theorem burden_dropStatement_lt {i : Nat} (hp : w.program.is .program = true)
    (hn : w.program.children.find? (·.id == some i) = some n) (hs : n.Shaped)
    (h : isUseStrict n = .ok true) :
    (dropStatement w n).program.burden < w.program.burden := by
  have hid : n.id = some i := by simpa using List.find?_some hn
  have hprog : (dropStatement w n).program = { w.program with
      children := Node.dropHandingLead i w.program.children } := by
    rw [dropStatement, hid]
  have hlength : (Node.dropHandingLead i w.program.children).length
      < w.program.children.length := by
    have := length_dropHandingLead hn
    omega
  rw [hprog]
  unfold burden
  rw [uses_dropHandingLead hp hn fun _ => uses_of_isUseStrict hs h]
  simp only [Prod.Lex.toLex_lt_toLex, Nat.lt_irrefl, false_or, true_and]
  exact hlength

/-- Dropping directives leaves less to do. -/
theorem dropUseStrict_run {is : List Nat} {changed : Bool}
    (hp : w.program.is .program = true) (hs : ∀ c ∈ w.program.children, c.Shaped) :
    RunSpec (fun w w' => w'.program.burden < w.program.burden) changed w
      (dropUseStrict is changed w).1 (dropUseStrict is changed w).2 := by
  induction is generalizing changed w with
  | nil => exact .idle
  | cons i is ih =>
      rw [dropUseStrict]
      cases hn : w.program.children.find? (·.id == some i) with
      | none => exact ih hp hs
      | some n =>
          simp only
          split
          · exact ih hp hs
          · rcases hu : isUseStrict n with _ | _ | _
            · exact .failed .refl
            · simp only
              split
              · exact ih hp hs
              · exact .idle
            · have hid : n.id = some i := by simpa using List.find?_some hn
              have hlt := burden_dropStatement_lt hp hn
                (hs n (List.mem_of_find?_eq_some hn)) hu
              have hprog : (dropStatement w n).program = { w.program with
                  children := Node.dropHandingLead i w.program.children } := by
                rw [dropStatement, hid]
              refine .turn hlt (ih ?_ ?_)
              · rw [hprog]
                exact hp
              · rw [hprog]
                exact Node.shaped_dropHandingLead hs

end Rules

section Runs

variable {context : RuleContext} {s : Sweep} {k : Symbol} {w : Workspace}

theorem Sweep.Writes.run_lighter {methods : List String}
    (hwrites : s.Writes methods fun context c new => WrapperForm context c methods new)
    (hs : s.Keeps k) (hk : k ∈ siteSymbols) (hw : w.Sound) :
    RunSpec Lighter false w (s.run context w).1 (s.run context w).2 := by
  refine (Sweep.run_calls hs hk hwrites (fun hne c new j hc hform hcalls => ?_) hw).mono ?_
  · cases hform with
    | method _ hm hform =>
        refine hform.every steady_keepsCall hc hm hcalls fun hk hid => ?_
        obtain ⟨target, path, value, -, rfl⟩ := hform.exists_assignment hk
        cases hid
    | factory _ _ _ => exact absurd rfl hne
    | inArray _ _ _ _ _ _ => exact absurd rfl hne
  · rintro _ _ ⟨hstep, hr, hcalls⟩
    exact ⟨hstep.sound_after.1, hstep.burden_lt_of_wrapper
      (hwrites.written context _ _ hstep.unparen_site hr) hcalls⟩

theorem Sweep.Writes.run_lighter_of_idiom (hwrites : s.Writes [] fun _ c new => IdiomForm c new)
    (hs : s.Keeps k) (hk : k ∈ siteSymbols) (hw : w.Sound) :
    RunSpec Lighter false w (s.run context w).1 (s.run context w).2 := by
  refine (Sweep.run_calls hs hk hwrites (fun hne => absurd rfl hne) hw).mono ?_
  rintro _ _ ⟨hstep, hr, -⟩
  exact ⟨hstep.sound_after.1, hstep.burden_lt_of_idiom
    (hwrites.written context _ _ hstep.unparen_site hr)⟩

end Runs

-- ==================================================================== runs

namespace Rule

variable {rule : Rule} {context : RuleContext} {w : Workspace}

/-- Every turn of a rule leaves less to do. -/
theorem run_burden (h : rule ∈ Registry.builtin.rules) (hw : w.Sound) :
    RunSpec (fun w w' => w'.program.burden < w.program.burden) false w
      (rule.apply context w).1 (rule.apply context w).2 := by
  have hsweeps : ∀ {sweeps}, rule.action = .sweeps sweeps →
      (∀ s ∈ sweeps, ∀ w, w.Sound →
        RunSpec Lighter false w (s.run context w).1 (s.run context w).2) →
      RunSpec (fun w w' => w'.program.burden < w.program.burden) false w
        (rule.apply context w).1 (rule.apply context w).2 := by
    intro sweeps haction hs
    rw [apply, haction]
    exact (runSweeps_run (fun _ _ h => h.1) hs hw).mono fun _ _ h => h.2
  rcases keeps_of_mem h with ⟨k, hk, sweeps, haction, hkeeps⟩ | rfl
  · refine hsweeps haction fun s hs w hw => ?_
    cases writes_of_mem h with
    | wrappers _ haction' hwrites =>
        rw [haction, RuleAction.sweeps.injEq] at haction'
        subst haction'
        obtain ⟨methods, hwrites⟩ := hwrites s hs
        exact hwrites.run_lighter (hkeeps s hs) hk hw
    | idioms _ haction' hwrites =>
        rw [haction, RuleAction.sweeps.injEq] at haction'
        subst haction'
        exact (hwrites s hs).run_lighter_of_idiom (hkeeps s hs) hk hw
    | directives hrule =>
        rw [hrule] at haction
        cases haction
  · rw [apply, show Rules.useStrict.action = .onProgram Rules.relaxModule from rfl]
    simp only [Rules.relaxModule]
    split
    · exact .idle
    · next hp =>
        simp only [Bool.or_eq_true, Bool.not_eq_true', not_or, Bool.not_eq_false] at hp
        exact Rules.dropUseStrict_run hp.1 fun c hc => hw.shaped.of_mem_children hc

theorem burden_lt_of_transGen {w' : Workspace}
    (h : TransGen (fun w w' : Workspace => w'.program.burden < w.program.burden) w w') :
    w'.program.burden < w.program.burden := by
  induction h with
  | single h => exact h
  | tail _ h ih => exact h.trans ih

/-- A rule that reports a change leaves less to do. -/
theorem burden_lt_of_reports (h : rule ∈ Registry.builtin.rules) (hw : w.Sound)
    {w' : Workspace} (happly : rule.apply context w = (w', .ok true)) :
    w'.program.burden < w.program.burden := by
  have hrun : RunSpec (fun w w' => w'.program.burden < w.program.burden) false w
      (rule.apply context w).1 (rule.apply context w).2 := run_burden h hw
  rw [happly] at hrun
  rcases hrun.told true rfl with ⟨hb, -⟩ | ⟨-, hturns⟩
  · cases hb
  · exact burden_lt_of_transGen hturns

/-- However rules follow one another on a parsed program, they cannot go on
changing it for ever. -/
theorem no_endless_run {source : Text} {n : Node} (hn : parse source = .ok n)
    (context : RuleContext) : ¬ ∃ (w : Nat → Workspace) (rules : Nat → Rule),
      w 0 = .ofProgram n ∧ ∀ k, rules k ∈ Registry.builtin.rules
        ∧ (rules k).apply context (w k) = (w (k + 1), .ok true) := by
  rintro ⟨w, rules, hfirst, hrun⟩
  have hdistinct : ∀ k, (w k).Distinct := by
    intro k
    induction k with
    | zero =>
        rw [hfirst]
        exact Workspace.distinct_ofProgram hn
    | succ k ih =>
        obtain ⟨hrule, happly⟩ := hrun k
        have hnext : ((rules k).apply context (w k)).1.Distinct := distinct_apply hrule ih
        rwa [happly] at hnext
  obtain ⟨k, hk⟩ := WellFounded.not_rel_apply_succ (r := (· < ·)) fun k => (w k).program.burden
  exact hk (burden_lt_of_reports (hrun k).1 (hdistinct k).sound (hrun k).2)

/-- `closest` changes this program and is called in it afterwards. -/
theorem closest_has_no_endless_run : ∃ n, parse (Text.ofString
      "$(a.closest('p')).closest('q').show();") = .ok n
    ∧ (∃ w, Rules.closest.apply .default (.ofProgram n) = (w, .ok true)
      ∧ w.render = Text.ofString "$(a.closest('p').closest('q')).show();")
    ∧ ¬ ∃ (w : Nat → Workspace) (rules : Nat → Rule),
      w 0 = .ofProgram n ∧ ∀ k, rules k ∈ Registry.builtin.rules
        ∧ (rules k).apply .default (w k) = (w (k + 1), .ok true) := by
  obtain ⟨n, hn, h⟩ := exists_of_parse_any
    (Text.ofString "$(a.closest('p')).closest('q').show();")
    (fun n => (match (Rules.closest.apply .default (.ofProgram n)).2 with
        | .ok b => b
        | .error _ => false)
      && (Rules.closest.apply .default (.ofProgram n)).1.render == Text.ofString
        "$(a.closest('p').closest('q')).show();") (by decide +kernel)
  rw [Bool.and_eq_true, beq_iff_eq] at h
  refine ⟨n, hn, ?_, no_endless_run hn .default⟩
  cases happly : Rules.closest.apply .default (.ofProgram n) with
  | mk w result =>
      rw [happly] at h
      cases result with
      | error f => cases h.1
      | ok b =>
          obtain rfl : b = true := h.1
          exact ⟨w, rfl, h.2⟩

/-- A rule that returns reports a change just when the program is another
than before, identities apart. If it reports none, nothing has moved. -/
theorem reports_exactly {w w' : Workspace} (hw : w.Reached)
    (h : rule ∈ Registry.builtin.rules) {b : Bool}
    (happly : rule.apply context w = (w', .ok b)) :
    (b = true ↔ w'.program.copy ≠ w.program.copy) ∧ (b = false → w' = w) := by
  have hidle : b = false → w' = w := by
    rintro rfl
    have hrun : RunSpec (fun w w' => w'.program.burden < w.program.burden) false w
        (rule.apply context w).1 (rule.apply context w).2 :=
      run_burden h hw.distinct.sound
    rw [happly] at hrun
    exact ((hrun.told false rfl).resolve_right fun h => nomatch h.1).2
  refine ⟨⟨?_, fun hne => ?_⟩, hidle⟩
  · rintro rfl hcopy
    have hlt := burden_lt_of_reports h hw.distinct.sound happly
    have hw' : w'.Distinct := by
      have hnext : (rule.apply context w).1.Distinct := distinct_apply h hw.distinct
      rwa [happly] at hnext
    have hmem : ∀ v : Workspace, v.program ∈ v.trees := fun _ => List.mem_cons_self
    rw [burden_of_copy (hw'.identified (hmem w')) (hw.distinct.identified (hmem w)) hcopy] at hlt
    exact lt_irrefl _ hlt
  · rw [← Bool.not_eq_false]
    intro hb
    exact hne (by rw [hidle hb])

/-- What is shown is changed, and styles that are not read are not. -/
theorem showHide_reports_exactly : ∃ w w' : Workspace, w.Reached
    ∧ Rules.showHide.apply .default w = (w', .ok true)
    ∧ w'.program.copy ≠ w.program.copy
    ∧ Rules.css.apply .default w = (w, .ok false) := by
  obtain ⟨n, hn, h⟩ := exists_of_parse_any
    (Text.ofString "$(a.closest('p')).show();")
    (fun n => (match (Rules.showHide.apply .default (.ofProgram n)).2 with
        | .ok b => b
        | .error _ => false)
      && (match (Rules.css.apply .default (.ofProgram n)).2 with
        | .ok b => !b
        | .error _ => false)) (by decide +kernel)
  rw [Bool.and_eq_true] at h
  have hw : (Workspace.ofProgram n).Reached := .parsed hn
  cases hshow : Rules.showHide.apply .default (.ofProgram n) with
  | mk w' shown =>
      cases hcss : Rules.css.apply .default (.ofProgram n) with
      | mk v styled =>
          rw [hshow, hcss] at h
          cases shown with
          | error f => cases h.1
          | ok b =>
              cases styled with
              | error f => cases h.2
              | ok c =>
                  obtain rfl : b = true := h.1
                  obtain rfl : c = false := by simpa using h.2
                  have hchanged := reports_exactly hw List.mem_cons_self hshow
                  have hidle := reports_exactly hw
                    (List.mem_cons_of_mem _ List.mem_cons_self) hcss
                  refine ⟨.ofProgram n, w', hw, hshow, hchanged.1.1 rfl, ?_⟩
                  rw [hcss, hidle.2 rfl]

end Rule

end Codemod
