/-
Reading literals of several parts, and `new`, back.

Arrays, object literals and `new` with its arguments are read as operands
without accesses. An array or an object literal may be tried as a pattern;
its parts are tried in turn.
-/
import Codemod.Proofs.Build.Accesses

namespace Codemod.Build

open Node Parse Parse.Step

variable {src : List Char} {s s' : Progress src} {fuel : Nat} {b rest : List Char}
  {shape : Shape} {t : String} {e o : Node} {es : List Node} {x : Text} {ps : List (Text × Node)}

-- ================================================================= arrays

theorem primary_array (h : ∀ e ∈ es, ReadsItem (.elements true) e) : ReadsPrimary (array es) := by
  intro src s fuel b rest hb hr hfuel hrest _
  rw [chars_array] at hrest hfuel
  simp only [List.length_cons, List.length_append, List.length_nil] at hfuel
  have ho : Comes s.rest b .mark "[" (rowChars es ++ ("]".toList ++ rest)) := by
    rw [hrest, List.cons_append, List.append_assoc]
    exact comes_bracket hb (t := "[") (by decide)
  have hc : Comes ([] ++ ("]".toList ++ rest)) [] .mark "]" rest :=
    comes_bracket blank_nil (by decide)
  obtain ⟨fuel, rfl⟩ : ∃ n, fuel = n + 1 := ⟨fuel - 1, by omega⟩
  have hless : 8 * (rowChars es).length + 2 ≤ fuel + 1 := by omega
  have hrow (s₁ : Progress src) (hs₁ : s₁.rest = rowChars es ++ ("]".toList ++ rest)) :
      GivesAll (run (fuel + 1) (.elements true)) s₁ (row [] es) ("]".toList ++ rest) :=
    givesAll_row (fun s => run_elements_empty (by decide)) h (by decide) hless hs₁
  obtain ⟨m, s', hm, hrun, hts, hs'⟩ := gives_bracketed .array ho (by decide) rfl hrow hc
    (by decide) rfl (by decide)
  refine ⟨m, s', ?_, ?_, hts, hs'⟩
  · rw [array, commaSeparated_eq_row]
    exact hm
  · unfold primary
    rw [run_after (run_mark_of_comes ho), run_after (run_peek s), ho.ahead_eq]
    dsimp only
    rw [if_neg (by decide), if_pos (by decide)]
    exact hrun

theorem Reads.array (h : ∀ e ∈ es, ReadsItem (.elements true) e)
    (ht : ∀ e ∈ es, TriesItem .patternElements e) : Reads (array es) := by
  have hs : Starts Parse.startsChain (Build.array es) :=
    starts_bracket (o := "[") (by decide) (by decide) (chars_array es)
  exact .of_chain rfl hs (ReadsPrimary.chain hs (primary_array h)) (tries_array ht)

-- ================================================================ objects

/-- The words in front of a method's name are not read in front of a colon. -/
theorem run_methodModifiers (h : Comes s.rest b .word t rest) (ht : t ≠ "*")
    (hcolon : ahead rest = ⟨.mark, ":", 1⟩) :
    (methodModifiers : Step src Unit).run s = some ((), s) := by
  have hstar : (ahead s.rest).isSpelled "*" = false := by
    rw [isSpelled_ahead h, beq_false_of_ne ht, Bool.and_false]
  unfold methodModifiers
  rw [run_after (run_peekSecond h), hcolon, run_after (run_sees _ s)]
  have hplain : (["(", "=", ";", "\x7d", ",", ":"].any (Lexeme.mk .mark ":" 1).isSpelled) = true := rfl
  simp only [hplain, beq_self_eq_true, Bool.and_true, Bool.not_true, Bool.and_false, Bool.false_and,
    Bool.false_eq_true, if_false]
  rw [run_after (run_peekSecond h), hcolon, run_after (run_sees_false hstar)]
  simp only [Bool.false_eq_true, if_false]
  rw [run_after (run_seesAny _ s)]
  have hstarts : (Lexeme.mk .mark ":" 1).startsProperty = false := rfl
  simp only [hstarts, Bool.and_false, Bool.false_eq_true, if_false]
  rfl

theorem Reads.item_pair (hx : x.ReadsAsWord) (h : Reads e) : ReadsItem .properties (pair x e) := by
  intro src s fuel b rest hb hr hfuel hrest
  rw [chars_pair, List.append_assoc] at hrest
  rw [chars_pair, List.length_append, List.length_cons, List.length_cons] at hfuel
  have hcomes : Comes s.rest b .word (String.ofList x.chars) (':' :: ' ' :: (e.chars ++ rest)) := by
    rw [hrest]
    exact comes_key hx hb
  have hspelled {u : String} (hu : startsLikeName u = false) :
      (ahead s.rest).isSpelled u = false := by
    rw [isSpelled_ahead hcomes, ne_of_readsAsWord hx hu, Bool.and_false]
  have hstar : String.ofList x.chars ≠ "*" :=
    fun hx' => Bool.noConfusion ((beq_iff_eq.2 hx').symm.trans (ne_of_readsAsWord hx rfl))
  obtain ⟨s₁, hrun₁, hts₁, hs₁⟩ := makes_propertyName hx hcomes (run fuel) .name
  obtain ⟨s₂, hrun₂, hts₂, hs₂⟩ := makes_role hts₁ .key
  have hcolon : Comes s₂.rest [] .mark ":" (' ' :: (e.chars ++ rest)) := by
    rw [hs₂, hs₁]
    exact comes_bracket blank_nil (t := ":") (by decide)
  obtain ⟨s₃, hrun₃, hts₃, hs₃⟩ := makes_token hcolon rfl (by decide)
  have hs₃' : s₃.rest = [' '] ++ (e.chars ++ rest) := hs₃
  have hless : 8 * e.chars.length ≤ fuel := by omega
  obtain ⟨m, s₄, hm, hrun₄, hts₄, hs₄⟩ := h.expression blank_space hr hless hs₃'
  obtain ⟨v, s₅, hv, hrun₅, hts₅, hs₅⟩ := exists_role hm hts₄ .value
  have htrees : s₅.trees = [(inRole (propertyIdentifier x) .key).placed (some .key) (Text.ofChars b),
      Node.token ":", v].reverse ++ s.trees := by
    rw [hts₅, hts₃, hts₂]
    rfl
  obtain ⟨m', s₆, hm', hrun₆, hts₆, hs₆⟩ := exists_close .pair (inRole (propertyIdentifier x) .key)
    htrees (by decide) rfl
    (.cons (mirrors_self rfl rfl) (.cons (mirrors_self rfl rfl) (.cons hv .nil)))
  refine ⟨m', s₆, hm', hts₆, by rw [hs₆, hs₅, hs₄], ?_⟩
  have hparen : (ahead s₁.rest).isSpelled "(" = false := by
    rw [← hs₂, isSpelled_ahead hcolon]
    rfl
  show (properties (run fuel)).run s = _
  unfold properties
  rw [run_after (run_sees_false (hspelled rfl))]
  simp only [Bool.false_eq_true, if_false]
  rw [run_after (run_mark_of_comes hcomes), run_after (run_peek s),
    run_after (run_peekSecond hcomes), run_after (run_tokenIf (hspelled rfl)), ahead_colon]
  simp only [Bool.false_eq_true, if_false]
  rw [if_neg (by rw [Bool.and_eq_true]; exact fun h => Bool.noConfusion h.2),
    if_neg (by rw [Bool.and_eq_true]; exact fun h => Bool.noConfusion h.2),
    run_after (run_methodModifiers hcomes hstar ahead_colon), run_after hrun₁,
    run_after (run_sees_false hparen)]
  simp only [Bool.false_eq_true, if_false]
  rw [run_after hrun₂, run_after hrun₃, run_after hrun₄, run_after hrun₅, run_after hrun₆]
  rfl

theorem run_properties_empty (h : (ahead s.rest).isSpelled "\x7d" = true) :
    (run (fuel + 1) .properties : Step src Unit).run s = some ((), s) := by
  show (properties (run fuel)).run s = _
  unfold properties
  rw [run_after (run_sees _ s), h]
  rfl

theorem primary_object (h : ∀ e ∈ pairsOf ps, ReadsItem .properties e) :
    ReadsPrimary (object ps) := by
  intro src s fuel b rest hb hr hfuel hrest _
  rw [chars_object] at hrest hfuel
  simp only [List.length_cons, List.length_append, List.length_nil] at hfuel
  have ho : Comes s.rest b .mark "\x7b" (braceLead ps
      ++ (rowChars (pairsOf ps) ++ (braceLead ps ++ ("\x7d".toList ++ rest)))) := by
    rw [hrest]
    simp only [List.cons_append, List.append_assoc]
    exact comes_bracket hb (t := "\x7b") (by decide)
  have hc : Comes (braceLead ps ++ ("\x7d".toList ++ rest)) (braceLead ps) .mark "\x7d" rest :=
    comes_bracket (blank_braceLead ps) (by decide)
  obtain ⟨fuel, rfl⟩ : ∃ n, fuel = n + 1 := ⟨fuel - 1, by omega⟩
  have hless : 8 * (rowChars (pairsOf ps)).length + 2 ≤ fuel + 1 := by omega
  have hrow (s₁ : Progress src) (hs₁ : s₁.rest = braceLead ps
      ++ (rowChars (pairsOf ps) ++ (braceLead ps ++ ("\x7d".toList ++ rest)))) :
      GivesAll (run (fuel + 1) .properties) s₁ (row [.scalar ' '] (pairsOf ps))
        (braceLead ps ++ ("\x7d".toList ++ rest)) := by
    cases ps with
    | nil =>
        refine ⟨[], s₁, .nil, run_properties_empty ?_, rfl, hs₁⟩
        have hclose : Comes s₁.rest [] .mark "\x7d" rest := by
          rw [hs₁]
          exact hc
        exact isSpelled_ahead hclose _
    | cons p ps =>
        obtain ⟨hcloses, hcomma⟩ := closing_brace rest
        exact reads_row (List.cons_ne_nil _ _) h blank_space hcloses hcomma hless hs₁
  obtain ⟨m, s', hm, hrun, hts, hs'⟩ := gives_bracketed .object ho (by decide) rfl hrow hc
    (by decide) rfl (by decide)
  refine ⟨m, s', ?_, ?_, hts, hs'⟩
  · rw [object_eq]
    exact hm
  · unfold primary
    rw [run_after (run_mark_of_comes ho), run_after (run_peek s), ho.ahead_eq]
    dsimp only
    rw [if_neg (by decide), if_neg (by decide), if_pos (by decide)]
    exact hrun

/-- What is read as an operand is read back if only operators need no
parentheses around it. -/
theorem Reads.of_operand (hk : e.kind.isAny primarySymbols = false)
    (hsingle : e.is .sequenceExpression = false) (hassign : e.is .assignmentExpression = false)
    (hs : Starts startsOperand e) (h : ReadsOperand e) (ht : TriesTarget e) : Reads e where
  single := hsingle
  starts := hs
  startsChain hprimary := absurd hprimary (by rw [hk]; decide)
  chain hprimary := absurd hprimary (by rw [hk]; decide)
  operand _ := h
  expression := ReadsOperand.expression hs h
  target := ht
  default := TriesTarget.default hs hassign ht

theorem Reads.object (hx : ∀ p ∈ ps, p.1.ReadsAsWord) (h : ∀ p ∈ ps, Reads p.2) :
    Reads (object ps) := by
  have hitem : ∀ e ∈ pairsOf ps, ReadsItem .properties e := by
    intro e he
    obtain ⟨p, hp, rfl⟩ := List.mem_map.1 he
    exact (h p hp).item_pair (hx p hp)
  have htries : ∀ e ∈ pairsOf ps, TriesItem .patternProperties e := by
    intro e he
    obtain ⟨p, hp, rfl⟩ := List.mem_map.1 he
    exact tries_pair (hx p hp) (h p hp).default
  have hs : Starts (fun shape t => shape == .mark && t == "\x7b") (Build.object ps) :=
    starts_bracket (o := "\x7b") (by decide) rfl (chars_object ps)
  have hf (shape : Shape) (t : String) (h : (shape == .mark && t == "\x7b") = true) :
      startsOperand shape t = true := by simp [startsOperand, h]
  exact .of_operand rfl rfl rfl (hs.mono hf)
    (ReadsChain.operand hs hf (by decide) (ReadsPrimary.chain hs (primary_object hitem)))
    (tries_object htries)

-- ==================================================================== new

/-- The parentheses behind what `new` makes are no call. -/
theorem run_accesses_callless (h : ahead s.rest = ⟨.mark, "(", 1⟩) (start : Nat) :
    (run (fuel + 1) (.accesses start false) : Step src Unit).run s = some ((), s) := by
  show (accesses (run fuel) start false : Step src Unit).run s = _
  unfold accesses
  rw [run_after (run_lastIsAny _ s)]
  split
  · rfl
  · rw [run_after (run_peek s), h]
    rfl

theorem comes_new (hb : Blank b) :
    Comes (b ++ ('n' :: 'e' :: 'w' :: ' ' :: rest)) b .word "new" (' ' :: rest) := by
  exact comes_plainWord (w := "new") hb (by decide) (endsName_cons (by decide))

theorem primary_new (ho : Reads o) (hcallless : o.callless = true) (h : ∀ a ∈ es, Reads a) :
    ReadsPrimary (newExpression o es) := by
  have hp : (Symbol.newExpression, Role.constructorOf) ∈ accessPlaces := by decide
  have ho' := Reads.access hp ho
  have hk := isAny_operand (e := o) hp
  have hcall : (Build.operand o .newExpression .constructorOf).callless = true := by
    rcases operand_cases (e := o) hp with ⟨heq, -⟩ | heq
    · rwa [heq]
    · rw [heq]
      rfl
  intro src s fuel b rest hb hr hfuel hrest _
  have hpos := length_pos_of_starts ho'.starts
  rw [chars_newExpression] at hrest hfuel
  simp only [List.length_cons, List.length_append, List.length_nil] at hfuel
  have hnew : Comes s.rest b .word "new" (' ' :: ((Build.operand o .newExpression
      .constructorOf).chars ++ '(' :: (rowChars es ++ ')' :: rest))) := by
    rw [hrest]
    simp only [List.cons_append, List.append_assoc, List.nil_append]
    exact comes_new hb
  obtain ⟨s₁, hrun₁, hts₁, hs₁⟩ := makes_token hnew rfl (by decide)
  have hs₁' : s₁.rest = [' '] ++ ((Build.operand o .newExpression .constructorOf).chars
      ++ '(' :: (rowChars es ++ ')' :: rest)) := hs₁
  have hargs : 8 * (rowChars es).length + 5 ≤ fuel := by omega
  have hasync := noAsyncArrow_of_arguments h blank_space hargs hs₁' hr.next
  obtain ⟨m, s₂, fuel₂, hm, hts₂, hs₂, hle, hrun₂⟩ :=
    ho'.chain hk (.inr hcall) blank_space ends_paren (by omega) hs₁' hasync
  obtain ⟨fuel₂, rfl⟩ : ∃ n, fuel₂ = n + 1 := ⟨fuel₂ - 1, by omega⟩
  have hparen : ahead s₂.rest = ⟨.mark, "(", 1⟩ := by rw [hs₂, ahead_paren]
  rw [run_accesses_callless hparen] at hrun₂
  obtain ⟨c, s₃, hc, hrun₃, hts₃, hs₃⟩ := exists_role hm hts₂ .constructorOf
  rw [hs₂] at hs₃
  have hs₃' : s₃.rest = [] ++ ((arguments es).chars ++ rest) := by
    rw [hs₃, chars_arguments]
    simp
  obtain ⟨fuel, rfl⟩ : ∃ n, fuel = n + 1 := ⟨fuel - 1, by omega⟩
  have hless : 8 * (rowChars es).length + 2 ≤ fuel := by omega
  obtain ⟨as, s₄, has, hrun₄, hts₄, hs₄⟩ := gives_arguments h blank_nil hless hs₃'
  obtain ⟨a, s₅, ha, hrun₅, hts₅, hs₅⟩ := exists_role has hts₄ .arguments
  have htrees : s₅.trees
      = [(Node.token "new").placed none (Text.ofChars b), c, a].reverse ++ s.trees := by
    rw [hts₅, hts₃, hts₁]
    rfl
  obtain ⟨m', s₆, hm', hrun₆, hts₆, hs₆⟩ := exists_close .newExpression (Node.token "new")
    htrees (by decide) rfl (.cons (mirrors_self rfl rfl) (.cons hc (.cons ha .nil)))
  refine ⟨m', s₆, hm', ?_, hts₆, by rw [hs₆, hs₅, hs₄]⟩
  have hends : Ends (Build.operand o .newExpression .constructorOf)
      ('(' :: (rowChars es ++ ')' :: rest)) := ends_paren
  obtain ⟨shape, t, rest', hcomes, -, hstart⟩ := ho'.starts blank_space hends
  rw [← hs₁'] at hcomes
  have hahead : startsOperand (ahead s₁.rest).shape (ahead s₁.rest).text = true := by
    rw [hcomes.ahead_eq, hstart]
  have hsees : (sees "(" : Step src Bool).run s₃ = some (true, s₃) := by
    rw [run_sees, hs₃, ahead_paren]
    rfl
  unfold primary
  rw [run_after (run_mark_of_comes hnew), run_after (run_peek s), hnew.ahead_eq]
  dsimp only
  rw [if_neg (by decide), if_neg (by decide), if_neg (by decide), if_pos (by decide)]
  unfold Parse.newExpression
  rw [run_after (run_mark_of_comes hnew), run_after hrun₁,
    run_after (run_tokenIf (isSpelled_eq_false_of_starts hahead rfl rfl))]
  simp only [Bool.false_eq_true, if_false]
  rw [run_after hrun₂, run_after hrun₃, run_after hsees]
  simp only [if_true]
  rw [run_after hrun₄, run_after hrun₅, hrun₆]

theorem Reads.newExpression (ho : Reads o) (hcallless : o.callless = true)
    (h : ∀ a ∈ es, Reads a) : Reads (newExpression o es) := by
  have hstart {f : Shape → String → Bool} (hf : f .word "new" = true) :
      Starts f (Build.newExpression o es) := by
    intro b rest hb _
    rw [chars_newExpression]
    exact ⟨.word, "new", _, comes_new hb, by decide, hf⟩
  have hs : Starts (fun shape t => shape == .word && t == "new") (Build.newExpression o es) :=
    hstart rfl
  have hf (shape : Shape) (t : String) (h : (shape == .word && t == "new") = true) :
      startsOperand shape t = true := by simp [startsOperand, h]
  exact .of_operand rfl rfl rfl (hs.mono hf)
    (ReadsChain.operand hs hf (by decide)
      (ReadsPrimary.chain hs (primary_new ho hcallless h)))
    (tries_of_startsNoTarget (hstart (by decide)))

end Codemod.Build
