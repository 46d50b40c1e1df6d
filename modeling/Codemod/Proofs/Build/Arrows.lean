/-
Reading arrow functions back.

The parameters of an arrow function are names in parentheses, and the body is
an expression that does not start like a block.
-/
import Codemod.Proofs.Build.Operators

namespace Codemod.Build

open Node Parse Parse.Step

variable {src : List Char} {s : Progress src} {fuel : Nat} {b rest : List Char}
  {e : Node} {x : Text} {xs : List Text}

-- ============================================================= parameters

theorem item_parameter (hx : IsName x) : ReadsItem .parameterList (identifier x) := by
  intro src s fuel b rest hb hr hfuel hrest
  have hs : Starts Parse.startsChain (identifier x) := starts_identifier hx
  have hpos := length_pos_of_starts hs
  obtain ⟨shape, t, rest', hcomes, hahead⟩ :=
    ahead_starts (hs.mono startsOperand_of_startsChain) hb hr hrest
  obtain ⟨fuel, rfl⟩ : ∃ n, fuel = n + 2 := ⟨fuel - 2, by omega⟩
  obtain ⟨s', hrun, hts, hs'⟩ := makes_target fuel hx hb hr.apart.endsName hrest
  have hequals : (ahead s'.rest).isSpelled "=" = false := by
    rw [hs', not_equals_of_closes hr]
  have hdefault : (run (fuel + 2) .targetWithDefault : Step src Unit).run s = some ((), s') := by
    rw [run_targetWithDefault hcomes, run_after hrun, run_after (run_sees_false hequals)]
    rfl
  refine ⟨_, s', mirrors_self rfl rfl, hts, hs', ?_⟩
  show (parameterList (run (fuel + 2))).run s = _
  unfold parameterList
  rw [run_after (run_sees_false (isSpelled_eq_false_of_starts hahead rfl rfl))]
  simp only [Bool.false_eq_true, if_false]
  rw [run_after (run_sees_false (isSpelled_eq_false_of_starts hahead rfl rfl))]
  simp only [Bool.false_eq_true, if_false]
  rw [run_after hdefault]
  rfl

/-- Names in parentheses are read as parameters. -/
theorem gives_parameters (hxs : ∀ x ∈ xs, IsName x) (hb : Blank b)
    (hfuel : 8 * (rowChars (xs.map identifier)).length + 2 ≤ fuel)
    (hrest : s.rest = b ++ ((formalParameters (xs.map identifier)).chars ++ rest)) :
    Gives (run (fuel + 1) .parameters) s
      ((formalParameters (xs.map identifier)).placed none (Text.ofChars b)) rest := by
  obtain ⟨fuel, rfl⟩ : ∃ n, fuel = n + 1 := ⟨fuel - 1, by omega⟩
  rw [chars_formalParameters] at hrest
  have ho : Comes s.rest b .mark "(" (rowChars (xs.map identifier) ++ (")".toList ++ rest)) := by
    rw [hrest, List.cons_append, List.append_assoc]
    exact comes_paren hb
  have hc : Comes ([] ++ (")".toList ++ rest)) [] .mark ")" rest :=
    comes_bracket blank_nil (by decide)
  have hitem : ∀ e ∈ xs.map identifier, ReadsItem .parameterList e := by
    intro e he
    obtain ⟨x, hx, rfl⟩ := List.mem_map.1 he
    exact item_parameter (hxs x hx)
  have hrow (s₁ : Progress src)
      (hs₁ : s₁.rest = rowChars (xs.map identifier) ++ (")".toList ++ rest)) :
      GivesAll (run (fuel + 1) .parameterList) s₁ (row [] (xs.map identifier))
        (")".toList ++ rest) :=
    givesAll_row (fun s => run_parameterList_empty) hitem (by decide) hfuel hs₁
  obtain ⟨m, s', hm, hrun, hts, hs'⟩ := gives_bracketed .formalParameters ho (by decide) rfl
    hrow hc (by decide) rfl (by decide)
  refine ⟨m, s', ?_, ?_, hts, hs'⟩
  · rw [formalParameters, commaSeparated_eq_row]
    exact hm
  · show (Parse.parameters (run (fuel + 1))).run s = _
    unfold Parse.parameters
    rw [run_after (run_mark_of_comes ho)]
    exact hrun

theorem comes_arrow (hb : Blank b) :
    Comes (b ++ ('=' :: '>' :: ' ' :: rest)) b .mark "=>" (' ' :: rest) :=
  comes_spacedMark (t := "=>") hb (by decide)

theorem run_seesArrow_true (h : s.rest = ' ' :: '=' :: '>' :: ' ' :: rest) :
    (seesArrow : Step src Bool).run s = some (true, s) := by
  have hcomes : Comes s.rest [' '] .mark "=>" (' ' :: rest) := by
    rw [h]
    exact comes_arrow blank_space
  have hsees : (sees "=>" : Step src Bool).run s = some (true, s) := by
    rw [run_sees, isSpelled_ahead hcomes]
    rfl
  unfold seesArrow
  rw [run_after hsees, run_after (run_gap s), hcomes.gap_read]
  rfl

theorem run_attempt_true {p : Step src Bool} {s' : Progress src}
    (h : p.run s = some (true, s')) : (attempt p).run s = some (true, s') := by
  show attempt p s = _
  unfold attempt
  rw [h]

/-- Parameters in front of an arrow are read as such. -/
theorem exists_run_arrowParameters (hxs : ∀ x ∈ xs, IsName x) (hb : Blank b)
    (hfuel : 8 * (rowChars (xs.map identifier)).length + 3 ≤ fuel)
    (hrest : s.rest = b ++ ((formalParameters (xs.map identifier)).chars
      ++ ' ' :: '=' :: '>' :: ' ' :: rest)) :
    ∃ m s', Mirrors m ((formalParameters (xs.map identifier)).placed (some .parameters)
        (Text.ofChars b))
      ∧ (arrowParameters (run fuel)).run s = some (true, s') ∧ s'.trees = m :: s.trees
      ∧ s'.rest = ' ' :: '=' :: '>' :: ' ' :: rest := by
  obtain ⟨fuel, rfl⟩ : ∃ n, fuel = n + 1 := ⟨fuel - 1, by omega⟩
  have hless : 8 * (rowChars (xs.map identifier)).length + 2 ≤ fuel := by omega
  obtain ⟨m, s₁, hm, hrun₁, hts₁, hs₁⟩ := gives_parameters hxs hb hless hrest
  obtain ⟨m', s₂, hm', hrun₂, hts₂, hs₂⟩ := exists_role hm hts₁ .parameters
  rw [hs₁] at hs₂
  refine ⟨m', s₂, hm', run_attempt_true ?_, hts₂, hs₂⟩
  rw [run_after hrun₁, run_after hrun₂, run_seesArrow_true hs₂]

-- =================================================================== body

/-- The body of an arrow function, in parentheses where it needs them. -/
def bodyOf (e : Node) : Node :=
  if e.kind.isAny [.object, .sequenceExpression] then parenthesized e else e

theorem arrow_eq (params : List Node) (e : Node) : arrow params e
    = branch .arrowFunction [inRole (formalParameters params) .parameters, spacedToken "=>",
        spaced (bodyOf e) .body] := rfl

@[simp] theorem chars_arrow (params : List Node) (e : Node) : (arrow params e).chars
    = (formalParameters params).chars ++ ' ' :: '=' :: '>' :: ' ' :: (bodyOf e).chars := by
  simp [arrow_eq, inRole, spaced, spacedToken]

theorem Reads.body (h : Reads e) : Reads (bodyOf e) := by
  unfold bodyOf
  split
  · exact h.parenthesized
  · exact h

/-- The body is not opened like a block. -/
def Unblocked (e : Node) : Prop := (bodyOf e).chars.head? ≠ some '\x7b'

/-- Behind the parameters the arrow is read with its body. -/
theorem exists_run_arrowBody {m p : Node} {ts : List Node} {lead : Text} (h : Reads e)
    (hopen : Unblocked e) (hr : Closes rest) (hfuel : 8 * (bodyOf e).chars.length ≤ fuel)
    (hm : Mirrors m (p.placed (some .parameters) lead)) (hts : s.trees = m :: ts)
    (hs : s.rest = ' ' :: '=' :: '>' :: ' ' :: ((bodyOf e).chars ++ rest)) :
    ∃ m' s', Mirrors m' ((branch .arrowFunction [inRole p .parameters, spacedToken "=>",
        spaced (bodyOf e) .body]).placed none lead)
      ∧ (arrowBody (run fuel) ts.length).run s = some ((), s') ∧ s'.trees = m' :: ts
      ∧ s'.rest = rest := by
  have harrow : Comes s.rest [' '] .mark "=>" (' ' :: ((bodyOf e).chars ++ rest)) := by
    rw [hs]
    exact comes_arrow blank_space
  obtain ⟨s₁, hrun₁, hts₁, hs₁⟩ := makes_token harrow rfl (by decide)
  have hs₁' : s₁.rest = [' '] ++ ((bodyOf e).chars ++ rest) := hs₁
  obtain ⟨k, s₂, hk, hrun₂, hts₂, hs₂⟩ := h.body.expression blank_space hr hfuel hs₁'
  obtain ⟨k', s₃, hk', hrun₃, hts₃, hs₃⟩ := exists_role hk hts₂ .body
  have htrees : s₃.trees = [m, spacedToken "=>", k'].reverse ++ ts := by
    rw [hts₃, hts₁, hts]
    rfl
  obtain ⟨m', s₄, hm', hrun₄, hts₄, hs₄⟩ := exists_close .arrowFunction (inRole p .parameters)
    htrees (by decide) rfl (.cons hm (.cons (mirrors_self rfl rfl) (.cons hk' .nil)))
  refine ⟨m', s₄, hm', ?_, hts₄, by rw [hs₄, hs₃, hs₂]⟩
  have hbrace : (ahead s₁.rest).isSpelled "\x7b" = false := by
    obtain ⟨c, cs, hcs, -⟩ := exists_head h.body.starts
    obtain ⟨shape, t, rest', hcomes, -, -⟩ := h.body.starts blank_space (hr.ends _)
    rw [← hs₁'] at hcomes
    rw [isSpelled_ahead hcomes, Bool.eq_false_iff]
    intro htrue
    rw [Bool.and_eq_true, beq_iff_eq] at htrue
    obtain ⟨-, rfl⟩ := htrue
    have heq := hcomes.eq
    rw [hs₁', hcs] at heq
    refine hopen ?_
    rw [hcs, (List.cons.inj (List.append_cancel_left heq)).1]
    rfl
  unfold arrowBody
  rw [run_after hrun₁, run_after (run_sees_false hbrace)]
  simp only [Bool.false_eq_true, if_false]
  rw [run_after hrun₂, run_after hrun₃, hrun₄]

theorem reads_arrow (hxs : ∀ x ∈ xs, IsName x) (h : Reads e) (hopen : Unblocked e) :
    ReadsExpression (arrow (xs.map identifier) e) := by
  intro src s fuel b rest hb hcloses hfuel hrest
  have hrest : s.rest = b ++ ((formalParameters (xs.map identifier)).chars
      ++ ' ' :: '=' :: '>' :: ' ' :: ((bodyOf e).chars ++ rest)) := by
    rw [hrest, chars_arrow]
    simp
  rw [chars_arrow, chars_formalParameters] at hfuel
  simp only [List.length_append, List.length_cons] at hfuel
  obtain ⟨fuel, rfl⟩ : ∃ n, fuel = n + 5 := ⟨fuel - 5, by omega⟩
  have ho : Comes s.rest b .mark "(" (rowChars (xs.map identifier) ++ [')']
      ++ ' ' :: '=' :: '>' :: ' ' :: ((bodyOf e).chars ++ rest)) := by
    rw [hrest, chars_formalParameters]
    exact comes_paren hb
  have hparameters : 8 * (rowChars (xs.map identifier)).length + 3 ≤ fuel + 1 := by omega
  obtain ⟨p, s₁, hp, hrun₁, hts₁, hs₁⟩ := exists_run_arrowParameters hxs hb hparameters hrest
  have hbody : 8 * (bodyOf e).chars.length ≤ fuel + 1 := by omega
  obtain ⟨m, s', hm, hrun₂, hts', hs'⟩ :=
    exists_run_arrowBody h hopen hcloses hbody hp hts₁ hs₁
  have hprimary : (primary (run (fuel + 1)) : Step src Unit).run s = some ((), s') := by
    unfold primary
    rw [run_after (run_mark_of_comes ho), run_after (run_peek s), ho.ahead_eq]
    dsimp only
    rw [if_pos (by decide), run_after hrun₁]
    simp only [if_true]
    exact hrun₂
  have hquiet : (ahead s'.rest).isQuiet = true := by rw [hs', hcloses.quiet]
  have haccess : (run (fuel + 2) (.access true) : Step src Unit).run s = some ((), s') := by
    rw [run_access ho hprimary, run_accesses hquiet]
  have hplain : unaryOperators.any (ahead s.rest).isSpelled = false := by
    rw [ho.ahead_eq]
    decide
  have hunary := run_unary ho (by decide) hplain haccess hquiet
  have hnone : (precedence? (ahead s'.rest).text).isNone = true := by
    rw [hs', no_operator_of_closes hcloses]
  refine ⟨m, s', ?_, ?_, hts', hs'⟩
  · rw [arrow_eq]
    exact hm
  · exact run_assignment ho (by decide) (run_binary ho hunary (.inl hnone) 1)
      (by rw [hs', hcloses.closing])

theorem Reads.arrow (hxs : ∀ x ∈ xs, IsName x) (h : Reads e) (hopen : Unblocked e) :
    Reads (arrow (xs.map identifier) e) := by
  have hchars : (Build.arrow (xs.map identifier) e).chars = "(".toList
      ++ (rowChars (xs.map identifier) ++ [')'] ++ ' ' :: '=' :: '>' :: ' ' :: (bodyOf e).chars) := by
    rw [chars_arrow, chars_formalParameters]
    rfl
  have hs : Starts startsOperand (Build.arrow (xs.map identifier) e) :=
    starts_bracket (by decide) (by decide) hchars
  have ht : TriesTarget (Build.arrow (xs.map identifier) e) :=
    tries_of_startsNoTarget (starts_bracket (by decide) (by decide) hchars)
  exact .of_expression rfl rfl hs (reads_arrow hxs h hopen) ht (TriesTarget.default hs rfl ht)

end Codemod.Build
