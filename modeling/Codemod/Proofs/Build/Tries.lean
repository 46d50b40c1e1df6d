/-
Expressions that are tried as patterns.

In front of parentheses the parser first tries to read the parameters of an
arrow function. Where the parentheses hold expressions, reading them as
patterns with default values either reads all of them, and then no arrow
follows, or gets stuck: behind a name or a pattern comes something that
stands behind no pattern.
-/
import Codemod.Proofs.Build.Rows
import Codemod.Proofs.Parse.Discipline

namespace Codemod.Build

open Node Parse Parse.Step

variable {src : List Char} {s s' : Progress src} {g : Goal} {fuel : Nat}
  {b rest : List Char} {shape : Shape} {t : String} {d e : Node} {es : List Node} {α : Type}

theorem eq_of_run_pure {a x : α} (h : (pure a : Step src α).run s = some (x, s')) : s' = s :=
  (Prod.mk.inj (Option.some.inj h)).2.symm

theorem sees_of_run_token {t : String} {k : Unit → Step src α} {x : α}
    (h : (Step.token t >>= k).run s = some (x, s')) : (ahead s.rest).isSpelled t = true := by
  by_contra hno
  rw [Bool.not_eq_true] at hno
  have hnone : (Step.token t : Step src Unit).run s = none := by
    unfold Step.token
    rw [run_after (run_sees_false hno)]
    rfl
  rw [StateT.run_bind, hnone] at h
  cases h

/-- Behind a closing bracket a pattern is at its end. -/
theorem rest_of_enclosed {go : Goal → Step src Unit} {start : Nat} {c : String} {sym : Symbol}
    {rest₂ b' : List Char} (hgo : ∀ s₂ : Progress src, (go g).run s = some ((), s₂) →
      s₂.rest = rest₂ ∨ Hangs s₂.rest)
    (hc : Comes rest₂ b' .mark c rest) (hmem : c ∈ [")", "]", "\x7d"])
    (hrun : (enclosed go start g c sym).run s = some ((), s')) : s'.rest = rest := by
  unfold enclosed at hrun
  obtain ⟨_, s₂, hgoal, hrun⟩ := run_bind_eq_some.1 hrun
  rcases hgo s₂ hgoal with hs₂ | hs₂
  · rw [← hs₂] at hc
    obtain ⟨s₃, hrun₃, -, hs₃⟩ := makes_token hc rfl (by rintro rfl; simp at hmem)
    rw [run_after hrun₃] at hrun
    have hsame : s'.rest = s₃.rest := by
      rw [← (Prod.mk.inj (Option.some.inj hrun)).2]
      rfl
    rw [hsame, hs₃]
  · have hsees := sees_of_run_token hrun
    simp only [Hangs, List.any_cons, List.any_nil, Bool.or_eq_false_iff] at hs₂
    simp only [List.mem_cons, List.not_mem_nil, or_false] at hmem
    rcases hmem with rfl | rfl | rfl
    · rw [hs₂.2.1] at hsees
      cases hsees
    · rw [hs₂.2.2.1] at hsees
      cases hsees
    · rw [hs₂.2.2.2.1] at hsees
      cases hsees

-- =============================================================== targets

/-- No pattern starts with the token. -/
def startsNoTarget (shape : Shape) (t : String) : Bool :=
  !(shape.isSpelled && ["\x7b", "[", "undefined"].contains t)
    && !(shape == .word && !reservedWords.contains t)

/-- What starts no pattern is read as none. -/
theorem tries_of_startsNoTarget (hs : Starts startsNoTarget e) : TriesTarget e := by
  intro src s s' fuel b rest hb hr hfuel hrest hrun
  obtain ⟨shape, t, rest', hcomes, -, hstart⟩ := hs hb hr
  rw [← hrest] at hcomes
  rw [startsNoTarget, Bool.and_eq_true, Bool.not_eq_true', Bool.not_eq_true'] at hstart
  have hspelled : ∀ u ∈ ["\x7b", "[", "undefined"], (ahead s.rest).isSpelled u = false := by
    intro u hu
    rw [isSpelled_ahead hcomes, Bool.eq_false_iff]
    intro htrue
    rw [Bool.and_eq_true, beq_iff_eq] at htrue
    obtain ⟨hshape, rfl⟩ := htrue
    simp [hshape, hu] at hstart
  have hname : (ahead s.rest).isName = false := by
    rw [hcomes.ahead_eq]
    exact hstart.2
  cases fuel with
  | zero => cases hrun
  | succ fuel =>
      have hnone : (run (fuel + 1) (.target false) : Step src Unit).run s = none := by
        show (target (run fuel) false : Step src Unit).run s = none
        unfold target
        rw [run_after (run_mark_of_comes hcomes), run_after (run_tokenIf (hspelled _ (by decide)))]
        simp only [Bool.false_eq_true, if_false]
        rw [run_after (run_tokenIf (hspelled _ (by decide)))]
        simp only [Bool.false_eq_true, if_false]
        rw [run_after (run_sees_false (hspelled _ (by decide)))]
        simp only [Bool.and_false, Bool.false_eq_true, if_false]
        unfold name
        rw [run_after (run_peek s), hname]
        rfl
      rw [hnone] at hrun
      cases hrun

/-- A pattern at the front of an expression is all that is read of it. -/
theorem TriesTarget.front {r : List Char} (h : TriesTarget d)
    (hd : d.is .assignmentExpression = false) (he : e.chars = d.chars ++ r)
    (hends : ∀ rest, Ends e rest → Ends d (r ++ rest) ∧ Hangs (r ++ rest)
      ∧ (e.is .assignmentExpression = false → Stuck (r ++ rest))) : TriesTarget e := by
  intro src s s' fuel b rest hb hr hfuel hrest hrun
  obtain ⟨hdr, hhangs, hstuck⟩ := hends rest hr
  rw [he, List.append_assoc] at hrest
  have hless : 8 * d.chars.length ≤ fuel + 1 := by
    rw [he, List.length_append] at hfuel
    omega
  rcases h hb hdr hless hrest hrun with hs' | ⟨-, hs'⟩
  · right
    rw [hs']
    exact ⟨hhangs, hstuck⟩
  · exact .inr ⟨(hs' hd).1, fun _ => hs' hd⟩

theorem not_equals_of_closes (h : Closes rest) : (ahead rest).isSpelled "=" = false := by
  have hend := h.closing
  simp only [Lexeme.isEnd, Bool.and_eq_true, Bool.not_eq_true', List.any_cons,
    Bool.or_eq_false_iff] at hend
  exact hend.2.2.1

theorem run_targetWithDefault (hb : Comes s.rest b shape t rest) :
    (run (fuel + 1) .targetWithDefault : Step src Unit).run s = (do
      run fuel (.target false)
      if ← sees "=" then
        role .left
        Step.token "="
        run fuel (.assignment false)
        role .right
        close s.trees.length .assignmentPattern : Step src Unit).run s := by
  show (targetWithDefault (run fuel) : Step src Unit).run s = _
  unfold targetWithDefault
  rw [run_after (run_mark_of_comes hb)]

theorem TriesTarget.default {f : Shape → String → Bool} (hs : Starts f e)
    (he : e.is .assignmentExpression = false) (h : TriesTarget e) : TriesDefault e := by
  intro src s s' fuel b rest hb hr hfuel hrest hrun
  have hpos := length_pos_of_starts hs
  obtain ⟨fuel, rfl⟩ : ∃ n, fuel = n + 1 := ⟨fuel - 1, by omega⟩
  obtain ⟨shape, t, rest', hcomes, -, -⟩ := hs hb (hr.ends e)
  rw [← hrest] at hcomes
  rw [run_targetWithDefault hcomes] at hrun
  obtain ⟨_, s₁, htarget, hrun⟩ := run_bind_eq_some.1 hrun
  have hs₁ : s₁.rest = rest ∨ Stuck s₁.rest :=
    (h hb (hr.ends e) hfuel hrest htarget).imp id fun hstuck => hstuck.2 he
  have hequals : (ahead s₁.rest).isSpelled "=" = false := by
    rcases hs₁ with hs₁ | hs₁
    · rw [hs₁, not_equals_of_closes hr]
    · exact hs₁.2
  rw [run_after (run_sees_false hequals)] at hrun
  rw [eq_of_run_pure hrun]
  exact hs₁

-- ================================================================== items

theorem hangs_of_default {s₁ : Progress src} (h : s₁.rest = rest ∨ Stuck s₁.rest) :
    s₁.rest = rest ∨ Hangs s₁.rest := h.imp id And.left

theorem ahead_starts {f : Shape → String → Bool} (hs : Starts f e) (hb : Blank b)
    (hr : Closes rest) (hrest : s.rest = b ++ (e.chars ++ rest)) :
    ∃ shape t rest', Comes s.rest b shape t rest'
      ∧ f (ahead s.rest).shape (ahead s.rest).text = true := by
  obtain ⟨shape, t, rest', hcomes, -, hstart⟩ := hs hb (hr.ends e)
  rw [← hrest] at hcomes
  exact ⟨shape, t, rest', hcomes, by rw [hcomes.ahead_eq, hstart]⟩

theorem tries_parameterList (hs : Starts startsOperand e) (h : TriesDefault e) :
    TriesItem .parameterList e := by
  intro src s s' fuel b rest hb hr hfuel hrest hrun
  obtain ⟨shape, t, rest', hcomes, hahead⟩ := ahead_starts hs hb hr hrest
  have hrun : (parameterList (run fuel)).run s = some ((), s') := hrun
  unfold parameterList at hrun
  rw [run_after (run_sees_false (isSpelled_eq_false_of_starts hahead rfl rfl))] at hrun
  simp only [Bool.false_eq_true, if_false] at hrun
  rw [run_after (run_sees_false (isSpelled_eq_false_of_starts hahead rfl rfl))] at hrun
  simp only [Bool.false_eq_true, if_false] at hrun
  obtain ⟨_, s₁, hdefault, hrun⟩ := run_bind_eq_some.1 hrun
  exact ⟨s₁, hangs_of_default (h hb hr hfuel hrest hdefault), hrun⟩

theorem tries_patternElements (hs : Starts startsOperand e) (h : TriesDefault e) :
    TriesItem .patternElements e := by
  intro src s s' fuel b rest hb hr hfuel hrest hrun
  obtain ⟨shape, t, rest', hcomes, hahead⟩ := ahead_starts hs hb hr hrest
  have hrun : (patternElements (run fuel)).run s = some ((), s') := hrun
  unfold patternElements at hrun
  rw [run_after (run_sees_false (isSpelled_eq_false_of_starts hahead rfl rfl))] at hrun
  simp only [Bool.false_eq_true, if_false] at hrun
  rw [run_after (run_tokenIf (isSpelled_eq_false_of_starts hahead rfl rfl))] at hrun
  simp only [Bool.false_eq_true, if_false] at hrun
  rw [run_after (run_sees_false (isSpelled_eq_false_of_starts hahead rfl rfl))] at hrun
  simp only [Bool.false_eq_true, if_false] at hrun
  obtain ⟨_, s₁, hdefault, hrun⟩ := run_bind_eq_some.1 hrun
  exact ⟨s₁, hangs_of_default (h hb hr hfuel hrest hdefault), hrun⟩

theorem tries_spread (hseq : e.is .sequenceExpression = false) (h : TriesTarget e) :
    TriesItem .patternElements (spread e) := by
  intro src s s' fuel b rest hb hr hfuel hrest hrun
  rw [chars_spread, operand_spread hseq] at hrest hfuel
  have hcomes : Comes s.rest b .mark "..." (e.chars ++ rest) := by
    rw [hrest]
    exact comes_dots hb
  have hspelled (u : String) : (ahead s.rest).isSpelled u = ("..." == u) :=
    isSpelled_ahead hcomes u
  have hsees : (sees "..." : Step src Bool).run s = some (true, s) := by
    rw [run_sees, hspelled]
    rfl
  obtain ⟨s₁, hdots, -, hs₁⟩ := makes_token hcomes rfl (by decide)
  have hrun : (patternElements (run fuel)).run s = some ((), s') := hrun
  unfold patternElements at hrun
  rw [run_after (run_sees_false (hspelled _))] at hrun
  simp only [Bool.false_eq_true, if_false] at hrun
  rw [run_after (run_tokenIf (hspelled _))] at hrun
  simp only [Bool.false_eq_true, if_false] at hrun
  rw [run_after hsees] at hrun
  simp only [if_true] at hrun
  obtain ⟨_, s₂, hrest₂, hrun⟩ := run_bind_eq_some.1 hrun
  refine ⟨s₂, ?_, hrun⟩
  unfold restTarget at hrest₂
  rw [run_after (run_mark_of_comes hcomes), run_after hdots] at hrest₂
  obtain ⟨_, s₃, htarget, hclose⟩ := run_bind_eq_some.1 hrest₂
  have hsame : s₂.rest = s₃.rest := by
    rw [← (Prod.mk.inj (Option.some.inj hclose)).2]
    rfl
  have hs₁' : s₁.rest = [] ++ (e.chars ++ rest) := hs₁
  rw [hsame]
  refine (h blank_nil (hr.ends e) ?_ hs₁' htarget).imp id And.left
  simp only [List.length_cons] at hfuel
  omega

theorem ahead_colon : ahead (':' :: rest) = ⟨.mark, ":", 1⟩ := by
  have hcomes : Comes ([] ++ (":".toList ++ rest)) [] .mark ":" rest :=
    comes_bracket blank_nil (by decide)
  exact hcomes.ahead_eq

theorem tries_pair {x : Text} (hx : x.ReadsAsWord) (h : TriesDefault e) :
    TriesItem .patternProperties (pair x e) := by
  intro src s s' fuel b rest hb hr hfuel hrest hrun
  rw [chars_pair, List.append_assoc] at hrest
  rw [chars_pair] at hfuel
  have hcomes : Comes s.rest b .word (String.ofList x.chars) (':' :: ' ' :: (e.chars ++ rest)) := by
    rw [hrest]
    exact comes_key hx hb
  have hspelled {u : String} (hu : startsLikeName u = false) :
      (ahead s.rest).isSpelled u = false := by
    rw [isSpelled_ahead hcomes, ne_of_readsAsWord hx hu, Bool.and_false]
  have hsecond (u : String) : (ahead (':' :: ' ' :: (e.chars ++ rest))).isSpelled u
      = (":" == u) := by
    rw [ahead_colon]
    rfl
  obtain ⟨s₁, hname, -, hs₁⟩ := makes_propertyName hx hcomes (run fuel) .key
  have hcolon : Comes s₁.rest [] .mark ":" (' ' :: (e.chars ++ rest)) := by
    rw [hs₁]
    exact comes_bracket blank_nil (t := ":") (by decide)
  obtain ⟨s₂, hrun₂, -, hs₂⟩ := makes_token hcolon rfl (by decide)
  have hrun : (patternProperties (run fuel)).run s = some ((), s') := hrun
  unfold patternProperties at hrun
  rw [run_after (run_sees_false (hspelled rfl))] at hrun
  simp only [Bool.false_eq_true, if_false] at hrun
  rw [run_after (run_mark_of_comes hcomes), run_after (run_peek s),
    run_after (run_peekSecond hcomes)] at hrun
  dsimp only at hrun
  rw [run_after (run_sees_false (hspelled rfl))] at hrun
  have hequals : (":" == "=") = false := rfl
  simp only [hsecond, hequals, beq_self_eq_true, Bool.not_true, Bool.and_false,
    Bool.false_eq_true, if_false] at hrun
  rw [run_after hname, run_after hrun₂] at hrun
  obtain ⟨_, s₃, hdefault, hrun⟩ := run_bind_eq_some.1 hrun
  obtain ⟨_, s₄, hrole, hrun⟩ := run_bind_eq_some.1 hrun
  obtain ⟨_, s₅, hclose, hrun⟩ := run_bind_eq_some.1 hrun
  have hsame : s₅.rest = s₃.rest := by
    rw [← (Prod.mk.inj (Option.some.inj hclose)).2, ← (Prod.mk.inj (Option.some.inj hrole)).2]
    rfl
  have hs₂' : s₂.rest = [' '] ++ (e.chars ++ rest) := hs₂
  refine ⟨s₅, ?_, hrun⟩
  rw [hsame]
  refine hangs_of_default (h blank_space hr ?_ hs₂' hdefault)
  simp only [List.length_append, List.length_cons] at hfuel
  omega

-- ================================================================= targets

/-- A name is read as a pattern as it is built. -/
theorem makes_target {x : Text} (fuel : Nat) (hx : IsName x) (hb : Blank b) (hr : EndsName rest)
    (hrest : s.rest = b ++ ((identifier x).chars ++ rest)) :
    Makes (run (fuel + 1) (.target false)) s ()
      ((identifier x).placed none (Text.ofChars b) :: s.trees) rest := by
  rw [identifier, chars_leaf] at hrest
  have hcomes := comes_word hb hx.word hr
  rw [← hrest] at hcomes
  have hspelled {u : String} (hu : startsLikeName u = false) :
      (ahead s.rest).isSpelled u = false := by
    rw [isSpelled_ahead hcomes, ne_of_readsAsWord hx.word hu, Bool.and_false]
  have hundefined : (ahead s.rest).isSpelled "undefined" = false := by
    rw [isSpelled_ahead hcomes]
    have hne : String.ofList x.chars ≠ "undefined" := fun h =>
      hx.free (h ▸ List.mem_cons_self)
    simp [hne]
  obtain ⟨s₁, hname, hts₁, hs₁⟩ := makes_name hx hcomes none
  refine ⟨s₁, ?_, hts₁, hs₁⟩
  show (target (run fuel) false).run s = _
  unfold target
  rw [run_after (run_mark_of_comes hcomes), run_after (run_tokenIf (hspelled rfl))]
  simp only [Bool.false_eq_true, if_false]
  rw [run_after (run_tokenIf (hspelled rfl))]
  simp only [Bool.false_eq_true, if_false]
  rw [run_after (run_sees_false hundefined)]
  simp only [Bool.and_false, Bool.false_eq_true, if_false]
  exact hname

theorem tries_identifier {x : Text} (hx : IsName x) : TriesTarget (identifier x) := by
  intro src s s' fuel b rest hb hr hfuel hrest hrun
  cases fuel with
  | zero => cases hrun
  | succ fuel =>
      obtain ⟨s₁, htarget, -, hs₁⟩ := makes_target fuel hx hb hr.apart.endsName hrest
      rw [htarget] at hrun
      left
      rw [← (Prod.mk.inj (Option.some.inj hrun)).2, hs₁]

/-- A row right behind its opening bracket, empty or not. -/
theorem tries_row_or_none {c : String} (hempty : ∀ s : Progress src,
      (ahead s.rest).isSpelled c = true → (run fuel g).run s = some ((), s))
    (h : ∀ e ∈ es, TriesItem g e) (hc : c ∈ [")", "]"])
    (hfuel : 8 * (rowChars es).length + 2 ≤ fuel)
    (hrest : s.rest = rowChars es ++ (c.toList ++ rest))
    (hrun : (run fuel g).run s = some ((), s')) :
    s'.rest = c.toList ++ rest ∨ Hangs s'.rest := by
  obtain ⟨hahead, hcloses, hcomma⟩ := closing_bracket hc rest
  by_cases hes : es = []
  · subst hes
    have hrest' : s.rest = c.toList ++ rest := hrest
    have hsees : (ahead s.rest).isSpelled c = true := by
      rw [hrest', hahead]
      simp [Lexeme.isSpelled]
    rw [hempty s hsees] at hrun
    rw [← (Prod.mk.inj (Option.some.inj hrun)).2]
    exact .inl hrest'
  · exact tries_row hes h blank_nil hcloses hcomma hfuel hrest hrun

theorem run_patternElements_empty (h : (ahead s.rest).isSpelled "]" = true) :
    (run (fuel + 1) .patternElements : Step src Unit).run s = some ((), s) := by
  show (patternElements (run fuel)).run s = _
  unfold patternElements
  rw [run_after (run_sees _ s), h]
  rfl

theorem tries_array (h : ∀ e ∈ es, TriesItem .patternElements e) : TriesTarget (array es) := by
  intro src s s' fuel b rest hb hr hfuel hrest hrun
  rw [chars_array] at hrest hfuel
  simp only [List.length_cons, List.length_append, List.length_nil] at hfuel
  have ho : Comes s.rest b .mark "[" (rowChars es ++ ("]".toList ++ rest)) := by
    rw [hrest, List.cons_append, List.append_assoc]
    exact comes_bracket hb (t := "[") (by decide)
  have hc : Comes ([] ++ ("]".toList ++ rest)) [] .mark "]" rest :=
    comes_bracket blank_nil (by decide)
  have hbrace : (ahead s.rest).isSpelled "\x7b" = false := isSpelled_ahead ho _
  obtain ⟨s₁, hopen, -, hs₁⟩ := makes_tokenIf ho rfl (by decide)
  obtain ⟨fuel, rfl⟩ : ∃ n, fuel = n + 2 := ⟨fuel - 2, by omega⟩
  have hrun : (target (run (fuel + 1)) false).run s = some ((), s') := hrun
  unfold target at hrun
  rw [run_after (run_mark_of_comes ho), run_after (run_tokenIf hbrace)] at hrun
  simp only [Bool.false_eq_true, if_false] at hrun
  rw [run_after hopen] at hrun
  exact .inl (rest_of_enclosed (fun s₂ hgoal => tries_row_or_none
    (fun s => run_patternElements_empty) h (by decide) (by omega) hs₁ hgoal) hc (by decide) hrun)

theorem run_patternProperties_empty (h : (ahead s.rest).isSpelled "\x7d" = true) :
    (run (fuel + 1) .patternProperties : Step src Unit).run s = some ((), s) := by
  show (patternProperties (run fuel)).run s = _
  unfold patternProperties
  rw [run_after (run_sees _ s), h]
  rfl

theorem tries_object {ps : List (Text × Node)}
    (h : ∀ e ∈ pairsOf ps, TriesItem .patternProperties e) : TriesTarget (object ps) := by
  intro src s s' fuel b rest hb hr hfuel hrest hrun
  rw [chars_object] at hrest hfuel
  simp only [List.length_cons, List.length_append, List.length_nil] at hfuel
  have ho : Comes s.rest b .mark "\x7b" (braceLead ps
      ++ (rowChars (pairsOf ps) ++ (braceLead ps ++ ("\x7d".toList ++ rest)))) := by
    rw [hrest]
    simp only [List.cons_append, List.append_assoc]
    exact comes_bracket hb (t := "\x7b") (by decide)
  have hc : Comes (braceLead ps ++ ("\x7d".toList ++ rest)) (braceLead ps) .mark "\x7d" rest :=
    comes_bracket (blank_braceLead ps) (by decide)
  obtain ⟨s₁, hopen, -, hs₁⟩ := makes_tokenIf ho rfl (by decide)
  obtain ⟨fuel, rfl⟩ : ∃ n, fuel = n + 2 := ⟨fuel - 2, by omega⟩
  have hrun : (target (run (fuel + 1)) false).run s = some ((), s') := hrun
  unfold target at hrun
  rw [run_after (run_mark_of_comes ho), run_after hopen] at hrun
  refine .inl (rest_of_enclosed (fun s₂ hgoal => ?_) hc (by decide) hrun)
  cases ps with
  | nil =>
      have hbrace : (ahead s₁.rest).isSpelled "\x7d" = true := by
        have hclose : Comes s₁.rest [] .mark "\x7d" rest := by
          rw [hs₁]
          exact hc
        exact isSpelled_ahead hclose _
      rw [run_patternProperties_empty hbrace] at hgoal
      rw [← (Prod.mk.inj (Option.some.inj hgoal)).2]
      exact .inl hs₁
  | cons p ps =>
      obtain ⟨hcloses, hcomma⟩ := closing_brace rest
      have hne : pairsOf (p :: ps) ≠ [] := List.cons_ne_nil _ _
      exact tries_row hne h blank_space hcloses hcomma (by omega) hs₁ hgoal

theorem rest_of_role {r : Role} (h : (role r).run s = some ((), s')) : s'.rest = s.rest := by
  rw [← (Prod.mk.inj (Option.some.inj h)).2]
  rfl

theorem rest_of_close {start : Nat} {sym : Symbol}
    (h : (close start sym).run s = some ((), s')) : s'.rest = s.rest := by
  rw [← (Prod.mk.inj (Option.some.inj h)).2]
  rfl

/-- The default value of an assignment is read as an expression. -/
theorem tries_default_assignment {l r : Node} {f : Shape → String → Bool}
    (hs : Starts f l) (hl : l.is .assignmentExpression = false) (h : TriesTarget l)
    (hr : ReadsExpression r) : TriesDefault (assignment l r) := by
  intro src s s' fuel b rest hb hcloses hfuel hrest hrun
  rw [chars_assignment, List.append_assoc] at hrest
  rw [chars_assignment] at hfuel
  simp only [List.length_append, List.length_cons] at hfuel
  have hends : Ends l (' ' :: '=' :: ' ' :: (r.chars ++ rest)) := follows_equals.ends l
  obtain ⟨shape, t, rest', hcomes, -, -⟩ := hs hb hends
  have hrest : s.rest = b ++ (l.chars ++ ' ' :: '=' :: ' ' :: (r.chars ++ rest)) := hrest
  rw [← hrest] at hcomes
  obtain ⟨fuel, rfl⟩ : ∃ n, fuel = n + 1 := ⟨fuel - 1, by omega⟩
  rw [run_targetWithDefault hcomes] at hrun
  obtain ⟨_, s₁, htarget, hrun⟩ := run_bind_eq_some.1 hrun
  rcases h hb hends (by omega) hrest htarget with hs₁ | ⟨-, hs₁⟩
  · have hequals : Comes s₁.rest [' '] .mark "=" (' ' :: (r.chars ++ rest)) := by
      rw [hs₁]
      exact comes_spacedMark (t := "=") blank_space (by decide)
    have hsees : (sees "=" : Step src Bool).run s₁ = some (true, s₁) := by
      rw [run_sees, isSpelled_ahead hequals]
      rfl
    rw [run_after hsees] at hrun
    simp only [if_true] at hrun
    obtain ⟨_, s₂, hrole, hrun⟩ := run_bind_eq_some.1 hrun
    rw [← rest_of_role hrole] at hequals
    obtain ⟨s₃, htoken, -, hs₃⟩ := makes_token hequals rfl (by decide)
    rw [run_after htoken] at hrun
    have hs₃' : s₃.rest = [' '] ++ (r.chars ++ rest) := hs₃
    have hless : 8 * r.chars.length ≤ fuel := by omega
    obtain ⟨-, s₄, -, hright, -, hs₄⟩ := hr blank_space hcloses hless hs₃'
    rw [run_after hright] at hrun
    obtain ⟨_, s₅, hrole', hclose⟩ := run_bind_eq_some.1 hrun
    left
    rw [rest_of_close hclose, rest_of_role hrole', hs₄]
  · rw [run_after (run_sees_false (hs₁ hl).2)] at hrun
    rw [eq_of_run_pure hrun]
    exact .inr (hs₁ hl)

-- ============================================================== parameters

theorem run_parameterList_empty (h : (ahead s.rest).isSpelled ")" = true) :
    (run (fuel + 1) .parameterList : Step src Unit).run s = some ((), s) := by
  show (parameterList (run fuel)).run s = _
  unfold parameterList
  rw [run_after (run_sees _ s), h]
  rfl

/-- Where expressions are read as parameters, they are read to the end. -/
theorem rest_of_parameters (h : ∀ e ∈ es, TriesItem .parameterList e) (hb : Blank b)
    (hfuel : 8 * (rowChars es).length + 4 ≤ fuel)
    (hrest : s.rest = b ++ '(' :: (rowChars es ++ ')' :: rest))
    (hrun : (run fuel .parameters).run s = some ((), s')) : s'.rest = rest := by
  have ho : Comes s.rest b .mark "(" (rowChars es ++ (")".toList ++ rest)) := by
    rw [hrest]
    exact comes_paren hb
  have hc : Comes ([] ++ (")".toList ++ rest)) [] .mark ")" rest :=
    comes_bracket blank_nil (by decide)
  obtain ⟨s₁, hopen, -, hs₁⟩ := makes_token ho rfl (by decide)
  obtain ⟨fuel, rfl⟩ : ∃ n, fuel = n + 2 := ⟨fuel - 2, by omega⟩
  have hrun : (parameters (run (fuel + 1))).run s = some ((), s') := hrun
  unfold parameters at hrun
  rw [run_after (run_mark_of_comes ho), run_after hopen] at hrun
  exact rest_of_enclosed (fun s₂ hgoal => tries_row_or_none
    (fun s => run_parameterList_empty) h (by decide) (by omega) hs₁ hgoal) hc (by decide) hrun

theorem run_seesArrow (h : (ahead s.rest).isSpelled "=>" = false) :
    (seesArrow : Step src Bool).run s = some (false, s) := by
  unfold seesArrow
  rw [run_after (run_sees_false h), run_after (run_gap s)]
  rfl

theorem run_attempt_false {p : Step src Bool}
    (h : ∀ s', p.run s ≠ some (true, s')) : (attempt p).run s = some (false, s) := by
  show attempt p s = _
  unfold attempt
  split
  · next s' hp => exact absurd hp (h s')
  · rfl

/-- No arrow function starts with parentheses around expressions. -/
theorem run_arrowParameters_false (h : ∀ e ∈ es, TriesItem .parameterList e) (hb : Blank b)
    (hfuel : 8 * (rowChars es).length + 4 ≤ fuel)
    (hrest : s.rest = b ++ '(' :: (rowChars es ++ ')' :: rest))
    (harrow : (ahead rest).isSpelled "=>" = false) :
    (arrowParameters (run fuel)).run s = some (false, s) := by
  refine run_attempt_false fun s' hrun => ?_
  obtain ⟨_, s₁, hparameters, hrun⟩ := run_bind_eq_some.1 hrun
  obtain ⟨_, s₂, hrole, hrun⟩ := run_bind_eq_some.1 hrun
  have hs₂ : s₂.rest = rest := by
    rw [rest_of_role hrole, rest_of_parameters h hb hfuel hrest hparameters]
  rw [run_seesArrow (by rw [hs₂, harrow])] at hrun
  cases hrun

/-- Nor does one with `async` in front of them. -/
theorem run_asyncArrow_false (h : ∀ e ∈ es, TriesItem .parameterList e) (hb : Blank b)
    (hfuel : 8 * (rowChars es).length + 4 ≤ fuel)
    (hrest : s.rest = b ++ ("async".toList ++ '(' :: (rowChars es ++ ')' :: rest)))
    (harrow : (ahead rest).isSpelled "=>" = false) :
    (asyncArrow (run fuel)).run s = some (false, s) := by
  have hcomes : Comes s.rest b .word "async" ('(' :: (rowChars es ++ ')' :: rest)) := by
    rw [hrest]
    exact comes_plainWord hb (by decide) (endsName_cons (by decide))
  obtain ⟨s₁, hasync, -, hs₁⟩ := makes_token hcomes rfl (by decide)
  refine run_attempt_false fun s' hrun => ?_
  rw [run_after hasync] at hrun
  obtain ⟨_, s₂, hparameters, hrun⟩ := run_bind_eq_some.1 hrun
  obtain ⟨_, s₃, hrole, hrun⟩ := run_bind_eq_some.1 hrun
  have hs₁' : s₁.rest = [] ++ '(' :: (rowChars es ++ ')' :: rest) := hs₁
  have hs₃ : s₃.rest = rest := by
    rw [rest_of_role hrole, rest_of_parameters h blank_nil hfuel hs₁' hparameters]
  rw [run_seesArrow (by rw [hs₃, harrow])] at hrun
  cases hrun

end Codemod.Build
