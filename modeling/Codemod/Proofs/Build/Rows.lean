/-
Rows of expressions.

Arguments, elements, properties and parameters are read by goals of one
shape: an item, and where a comma follows it the goal again. So a row is read
back if each of its items is.
-/
import Codemod.Proofs.Build.Atoms

namespace Codemod.Build

open Node Parse Parse.Step

variable {src : List Char} {s s' : Progress src} {g : Goal} {fuel : Nat}
  {b rest : List Char} {e : Node} {es : List Node}

/-- Goes on with the goal if a comma comes. -/
def goOn (go : Goal → Step src Unit) (g : Goal) : Step src Unit := do
  if ← tokenIf "," then go g

theorem comes_comma (hb : Blank b) : Comes (b ++ (',' :: rest)) b .mark "," rest :=
  comes_bracket hb (t := ",") (by decide)

theorem run_goOn_comma (go : Goal → Step src Unit) (h : s.rest = ',' :: rest) :
    ∃ s', s'.trees = Node.token "," :: s.trees ∧ s'.rest = rest
      ∧ (goOn go g).run s = (go g).run s' := by
  have hcomes : Comes s.rest [] .mark "," rest := by
    rw [h]
    exact comes_comma blank_nil
  obtain ⟨s', hrun, hts, hs'⟩ := makes_tokenIf hcomes rfl (by decide)
  refine ⟨s', hts, hs', ?_⟩
  unfold goOn
  rw [run_after hrun]
  rfl

theorem run_goOn_end (go : Goal → Step src Unit) (h : (ahead s.rest).isSpelled "," = false) :
    (goOn go g).run s = some ((), s) := by
  unfold goOn
  rw [run_after (run_tokenIf h)]
  rfl

-- ================================================================ reading

/-- Asked for the goal, the parser reads the expression and goes on with the
goal behind a comma. -/
def ReadsItem (g : Goal) (e : Node) : Prop :=
  ∀ {src : List Char} {s : Progress src} {fuel : Nat} {b rest : List Char},
    Blank b → Closes rest → 8 * e.chars.length ≤ fuel → s.rest = b ++ (e.chars ++ rest) →
    ∃ m s', Mirrors m (e.placed none (Text.ofChars b)) ∧ s'.trees = m :: s.trees
      ∧ s'.rest = rest ∧ (run (fuel + 1) g).run s = (goOn (run fuel) g).run s'

/-- The items of a row are read one after the other. -/
theorem reads_row (hes : es ≠ []) (h : ∀ e ∈ es, ReadsItem g e) (hb : Blank b)
    (hr : Closes rest) (hend : (ahead rest).isSpelled "," = false)
    (hfuel : 8 * (rowChars es).length + 2 ≤ fuel) (hrest : s.rest = b ++ (rowChars es ++ rest)) :
    ∃ ms s', List.Forall₂ Mirrors ms (row (Text.ofChars b) es)
      ∧ (run fuel g).run s = some ((), s') ∧ s'.trees = ms.reverse ++ s.trees
      ∧ s'.rest = rest := by
  induction es generalizing s b fuel with
  | nil => exact absurd rfl hes
  | cons e es ih =>
      rw [List.forall_mem_cons] at h
      obtain ⟨fuel, rfl⟩ : ∃ n, fuel = n + 1 := ⟨fuel - 1, by omega⟩
      cases es with
      | nil =>
          rw [rowChars] at hrest hfuel
          have hitem : 8 * e.chars.length ≤ fuel := by omega
          obtain ⟨m, s', hm, hts, hs', hrun⟩ := h.1 hb hr hitem hrest
          refine ⟨[m], s', .cons hm .nil, ?_, hts, hs'⟩
          rw [hrun, run_goOn_end]
          rw [hs', hend]
      | cons d es =>
          rw [rowChars, List.append_assoc] at hrest
          simp only [rowChars, List.length_append, List.length_cons] at hfuel
          have hitem : 8 * e.chars.length ≤ fuel := by omega
          obtain ⟨m, s₁, hm, hts₁, hs₁, hrun₁⟩ :=
            h.1 hb (closes_bracket (t := ",") (by decide)) hitem hrest
          obtain ⟨s₂, hts₂, hs₂, hrun₂⟩ := run_goOn_comma (g := g) (run fuel) hs₁
          have hmore : s₂.rest = [' '] ++ (rowChars (d :: es) ++ rest) := hs₂
          have hless : 8 * (rowChars (d :: es)).length + 2 ≤ fuel := by omega
          obtain ⟨ms, s', hms, hrun, hts, hs'⟩ :=
            ih (List.cons_ne_nil _ _) h.2 blank_space hless hmore
          refine ⟨m :: Node.token "," :: ms, s', ?_, ?_, ?_, hs'⟩
          · exact .cons hm (.cons (mirrors_self rfl rfl) hms)
          · rw [hrun₁, hrun₂, hrun]
          · rw [hts, hts₂, hts₁]
            simp

-- ================================================================= trying

/-- Asked for the goal, the parser reads all of the expression if it reads
anything, and goes on behind a comma, or is in front of neither a comma nor a
closing bracket. -/
def TriesItem (g : Goal) (e : Node) : Prop :=
  ∀ {src : List Char} {s s' : Progress src} {fuel : Nat} {b rest : List Char},
    Blank b → Closes rest → 8 * e.chars.length ≤ fuel → s.rest = b ++ (e.chars ++ rest) →
    (run (fuel + 1) g).run s = some ((), s') → ∃ s₁ : Progress src,
      (s₁.rest = rest ∨ Hangs s₁.rest) ∧ (goOn (run fuel) g).run s₁ = some ((), s')

theorem rest_of_goOn_hangs {go : Goal → Step src Unit} (h : Hangs s.rest)
    (hrun : (goOn go g).run s = some ((), s')) : s'.rest = s.rest := by
  have hcomma : (ahead s.rest).isSpelled "," = false := by
    simp only [Hangs, List.any_cons, Bool.or_eq_false_iff] at h
    exact h.1
  rw [run_goOn_end go hcomma] at hrun
  rw [(Prod.mk.inj (Option.some.inj hrun)).2]

/-- A row is read to its end if it is read at all, or the parser is stuck in
it. -/
theorem tries_row (hes : es ≠ []) (h : ∀ e ∈ es, TriesItem g e) (hb : Blank b)
    (hr : Closes rest) (hend : (ahead rest).isSpelled "," = false)
    (hfuel : 8 * (rowChars es).length + 2 ≤ fuel) (hrest : s.rest = b ++ (rowChars es ++ rest))
    (hrun : (run fuel g).run s = some ((), s')) : s'.rest = rest ∨ Hangs s'.rest := by
  induction es generalizing s b fuel with
  | nil => exact absurd rfl hes
  | cons e es ih =>
      rw [List.forall_mem_cons] at h
      obtain ⟨fuel, rfl⟩ : ∃ n, fuel = n + 1 := ⟨fuel - 1, by omega⟩
      cases es with
      | nil =>
          rw [rowChars] at hrest hfuel
          have hitem : 8 * e.chars.length ≤ fuel := by omega
          obtain ⟨s₁, hs₁ | hs₁, hmore⟩ := h.1 hb hr hitem hrest hrun
          · rw [run_goOn_end _ (by rw [hs₁, hend])] at hmore
            left
            rw [← (Prod.mk.inj (Option.some.inj hmore)).2, hs₁]
          · right
            rwa [rest_of_goOn_hangs hs₁ hmore]
      | cons d es =>
          rw [rowChars, List.append_assoc] at hrest
          simp only [rowChars, List.length_append, List.length_cons] at hfuel
          have hitem : 8 * e.chars.length ≤ fuel := by omega
          obtain ⟨s₁, hs₁ | hs₁, hmore⟩ :=
            h.1 hb (closes_bracket (t := ",") (by decide)) hitem hrest hrun
          · obtain ⟨s₂, -, hs₂, hrun₂⟩ := run_goOn_comma (g := g) (run fuel) hs₁
            have htail : s₂.rest = [' '] ++ (rowChars (d :: es) ++ rest) := hs₂
            have hless : 8 * (rowChars (d :: es)).length + 2 ≤ fuel := by omega
            exact ih (List.cons_ne_nil _ _) h.2 blank_space hless htail
              (hrun₂.symm.trans hmore)
          · right
            rwa [rest_of_goOn_hangs hs₁ hmore]

-- =============================================================== elements

theorem seesAny_false_of_starts {f : Shape → String → Bool} {us : List String}
    (h : f (ahead s.rest).shape (ahead s.rest).text = true)
    (hus : ∀ u ∈ us, f .word u = false ∧ f .mark u = false) :
    us.any (ahead s.rest).isSpelled = false := by
  refine List.any_eq_false.2 fun u hu => ?_
  rw [isSpelled_eq_false_of_starts h (hus u hu).1 (hus u hu).2]
  decide

theorem run_elements {holes : Bool}
    (hclose : [")", "]"].any (ahead s.rest).isSpelled = false)
    (hcomma : (ahead s.rest).isSpelled "," = false) :
    (run (fuel + 1) (.elements holes) : Step src Unit).run s = (do
      let start ← mark
      if ← tokenIf "..." then
        run fuel (.assignment false)
        close start .spreadElement
      else run fuel (.assignment false)
      goOn (run fuel) (.elements holes) : Step src Unit).run s := by
  show (elements (run fuel) holes).run s = _
  unfold elements
  rw [run_after (run_seesAny_false hclose)]
  simp only [Bool.false_eq_true, if_false]
  rw [run_after (run_sees_false hcomma)]
  simp only [Bool.and_false, Bool.false_eq_true, if_false]
  rfl

theorem Reads.item_elements (h : Reads e) (holes : Bool) : ReadsItem (.elements holes) e := by
  intro src s fuel b rest hb hr hfuel hrest
  obtain ⟨shape, t, rest', hcomes, -, hstart⟩ := h.starts hb (hr.ends e)
  rw [← hrest] at hcomes
  have hahead : startsOperand (ahead s.rest).shape (ahead s.rest).text = true := by
    rw [hcomes.ahead_eq, hstart]
  obtain ⟨m, s', hm, hrun, hts, hs'⟩ := h.expression hb hr hfuel hrest
  refine ⟨m, s', hm, hts, hs', ?_⟩
  rw [run_elements (seesAny_false_of_starts hahead (by decide))
    (isSpelled_eq_false_of_starts hahead rfl rfl), run_after (run_mark_of_comes hcomes),
    run_after (run_tokenIf (isSpelled_eq_false_of_starts hahead rfl rfl))]
  simp only [Bool.false_eq_true, if_false]
  rw [run_after hrun]

theorem operand_spread (h : e.is .sequenceExpression = false) :
    operand e .spreadElement .argument = e := by
  have hnone : needsParentheses e.kind Symbol.spreadElement (some .argument) = false := by
    have hkind : e.kind ≠ .symbol .sequenceExpression := by simpa [Node.is] using h
    simp [needsParentheses, hkind, Kind.isAny]
  rw [operand, hnone]
  rfl

theorem Reads.item_spread (h : Reads e) (holes : Bool) :
    ReadsItem (.elements holes) (spread e) := by
  intro src s fuel b rest hb hr hfuel hrest
  rw [chars_spread, operand_spread h.single] at hrest hfuel
  have hcomes : Comes s.rest b .mark "..." (e.chars ++ rest) := by
    rw [hrest]
    exact comes_dots hb
  have hahead : (ahead s.rest).shape = .mark ∧ (ahead s.rest).text = "..." := by
    rw [hcomes.ahead_eq]
    exact ⟨rfl, rfl⟩
  obtain ⟨s₁, hdots, hts₁, hs₁⟩ := makes_tokenIf hcomes rfl (by decide)
  have hless : 8 * e.chars.length ≤ fuel := by
    simp only [List.length_cons] at hfuel
    omega
  have hs₁' : s₁.rest = [] ++ (e.chars ++ rest) := hs₁
  obtain ⟨m, s₂, hm, hrun, hts₂, hs₂⟩ := h.expression blank_nil hr hless hs₁'
  have htrees : s₂.trees
      = [(Node.token "...").placed none (Text.ofChars b), m].reverse ++ s.trees := by
    rw [hts₂, hts₁]
    rfl
  obtain ⟨m', s₃, hm', hclose, hts₃, hs₃⟩ := exists_close .spreadElement (Node.token "...")
    htrees (by decide) rfl (.cons (mirrors_self rfl rfl) (.cons hm .nil))
  refine ⟨m', s₃, ?_, hts₃, by rw [hs₃, hs₂], ?_⟩
  · rwa [spread, operand_spread h.single]
  · rw [run_elements, run_after (run_mark_of_comes hcomes), run_after hdots]
    · simp only [if_true]
      rw [run_after hrun, run_after hclose]
    · simp [Lexeme.isSpelled, hahead]
    · simp [Lexeme.isSpelled, hahead]

-- =============================================================== brackets

/-- A goal and the bracket behind it. -/
def enclosed (go : Goal → Step src Unit) (start : Nat) (g : Goal) (c : String)
    (sym : Symbol) : Step src Unit := do
  go g
  token c
  close start sym

/-- A goal between brackets. -/
def bracketed (go : Goal → Step src Unit) (start : Nat) (o : String) (g : Goal) (c : String)
    (sym : Symbol) : Step src Unit := do
  token o
  enclosed go start g c sym

/-- The goal reads neighbouring nodes. -/
def GivesAll (p : Step src Unit) (s : Progress src) (ns : List Node)
    (rest : List Char) : Prop :=
  ∃ ms s', List.Forall₂ Mirrors ms ns ∧ p.run s = some ((), s')
    ∧ s'.trees = ms.reverse ++ s.trees ∧ s'.rest = rest

theorem gives_bracketed (sym : Symbol) {go : Goal → Step src Unit} {o c : String}
    {ns : List Node} {b' rest₁ rest₂ : List Char} (ho : Comes s.rest b .mark o rest₁)
    (hone : o ≠ "") (hos : (Node.token o).IsSettled)
    (hrow : ∀ s₁ : Progress src, s₁.rest = rest₁ → GivesAll (go g) s₁ ns rest₂)
    (hc : Comes rest₂ b' .mark c rest) (hcne : c ≠ "") (hcs : (Node.token c).IsSettled)
    (hsym : sym ∉ [.string, .objectAssignmentPattern]) :
    Gives (bracketed go s.trees.length o g c sym) s
      ((branch sym (Node.token o :: ns ++ [(Node.token c).placed none (Text.ofChars b')])).placed
        none (Text.ofChars b)) rest := by
  obtain ⟨s₁, hrun₁, hts₁, hs₁⟩ := makes_token ho rfl hone
  obtain ⟨ms, s₂, hms, hrun₂, hts₂, hs₂⟩ := hrow s₁ hs₁
  rw [← hs₂] at hc
  obtain ⟨s₃, hrun₃, hts₃, hs₃⟩ := makes_token hc rfl hcne
  have htrees : s₃.trees = ((Node.token o).placed none (Text.ofChars b)
      :: (ms ++ [(Node.token c).placed none (Text.ofChars b')])).reverse ++ s.trees := by
    rw [hts₃, hts₂, hts₁]
    simp
  have hall : List.Forall₂ Mirrors ((Node.token o).placed none (Text.ofChars b)
      :: (ms ++ [(Node.token c).placed none (Text.ofChars b')]))
      ((Node.token o).placed (Node.token o).role (Text.ofChars b)
        :: (ns ++ [(Node.token c).placed none (Text.ofChars b')])) :=
    .cons (mirrors_self hos rfl)
      (List.rel_append hms (.cons (mirrors_self hcs rfl) .nil))
  obtain ⟨m, s₄, hm, hrun₄, hts₄, hs₄⟩ := exists_close sym _ htrees hsym rfl hall
  refine ⟨m, s₄, hm, ?_, hts₄, by rw [hs₄, hs₃]⟩
  unfold bracketed enclosed
  rw [run_after hrun₁, run_after hrun₂, run_after hrun₃, hrun₄]

theorem closing_bracket {c : String} (hc : c ∈ [")", "]"]) (rest : List Char) :
    ahead (c.toList ++ rest) = ⟨.mark, c, c.toList.length⟩ ∧ Closes (c.toList ++ rest)
      ∧ (ahead (c.toList ++ rest)).isSpelled "," = false := by
  have hsub : ∀ u ∈ [")", "]"], u ∈ brackets ∧ u ∈ [")", "]", ","] ∧ u ≠ "," := by decide
  obtain ⟨hbracket, hclosing, hne⟩ := hsub c hc
  have hcomes : Comes ([] ++ (c.toList ++ rest)) [] .mark c rest :=
    comes_bracket blank_nil hbracket
  have hahead : ahead (c.toList ++ rest) = ⟨.mark, c, c.toList.length⟩ := hcomes.ahead_eq
  refine ⟨hahead, closes_bracket hclosing, ?_⟩
  rw [hahead]
  simpa [Lexeme.isSpelled] using hne

theorem blank_braceLead (ps : List (Text × Node)) : Blank (braceLead ps) := by
  cases ps with
  | nil => exact blank_nil
  | cons => exact blank_space

theorem closing_brace (rest : List Char) : Closes (' ' :: '\x7d' :: rest)
    ∧ (ahead (' ' :: '\x7d' :: rest)).isSpelled "," = false := by
  have hcomes : Comes ([' '] ++ ("\x7d".toList ++ rest)) [' '] .mark "\x7d" rest :=
    comes_bracket blank_space (by decide)
  have hahead : ahead (' ' :: '\x7d' :: rest) = ⟨.mark, "\x7d", 1⟩ := hcomes.ahead_eq
  refine ⟨closes_brace, ?_⟩
  rw [hahead]
  rfl

/-- A row right behind its opening bracket, empty or not. -/
theorem givesAll_row {c : String} (hempty : ∀ s : Progress src,
      (ahead s.rest).isSpelled c = true → (run fuel g).run s = some ((), s))
    (h : ∀ e ∈ es, ReadsItem g e) (hc : c ∈ [")", "]"])
    (hfuel : 8 * (rowChars es).length + 2 ≤ fuel)
    (hrest : s.rest = rowChars es ++ (c.toList ++ rest)) :
    GivesAll (run fuel g) s (row [] es) (c.toList ++ rest) := by
  obtain ⟨hahead, hcloses, hcomma⟩ := closing_bracket hc rest
  by_cases hes : es = []
  · subst hes
    refine ⟨[], s, .nil, hempty s ?_, rfl, hrest⟩
    have hrest' : s.rest = c.toList ++ rest := hrest
    rw [hrest', hahead]
    simp [Lexeme.isSpelled]
  · exact reads_row hes h blank_nil hcloses hcomma hfuel hrest

theorem run_elements_empty {holes : Bool} {c : String} (hc : c ∈ [")", "]"])
    (h : (ahead s.rest).isSpelled c = true) :
    (run (fuel + 1) (.elements holes) : Step src Unit).run s = some ((), s) := by
  show (elements (run fuel) holes).run s = _
  unfold elements
  have hany : [")", "]"].any (ahead s.rest).isSpelled = true :=
    List.any_eq_true.2 ⟨c, hc, h⟩
  rw [run_after (run_seesAny _ s), hany]
  rfl

/-- Arguments are read back. -/
theorem gives_arguments (h : ∀ e ∈ es, Reads e) (hb : Blank b)
    (hfuel : 8 * (rowChars es).length + 2 ≤ fuel)
    (hrest : s.rest = b ++ ((arguments es).chars ++ rest)) :
    Gives (run (fuel + 1) .arguments) s ((arguments es).placed none (Text.ofChars b)) rest := by
  obtain ⟨fuel, rfl⟩ : ∃ n, fuel = n + 1 := ⟨fuel - 1, by omega⟩
  rw [chars_arguments] at hrest
  have ho : Comes s.rest b .mark "(" (rowChars es ++ (")".toList ++ rest)) := by
    rw [hrest, List.cons_append, List.append_assoc]
    exact comes_paren hb
  have hc : Comes ([] ++ (")".toList ++ rest)) [] .mark ")" rest :=
    comes_bracket blank_nil (by decide)
  have hrow (s₁ : Progress src) (hs₁ : s₁.rest = rowChars es ++ (")".toList ++ rest)) :
      GivesAll (run (fuel + 1) (.elements false)) s₁ (row [] es) (")".toList ++ rest) :=
    givesAll_row (fun s => run_elements_empty (by decide))
      (fun e he => (h e he).item_elements false) (by decide) hfuel hs₁
  obtain ⟨m, s', hm, hrun, hts, hs'⟩ := gives_bracketed .arguments ho (by decide) rfl hrow
    hc (by decide) rfl (by decide)
  refine ⟨m, s', ?_, ?_, hts, hs'⟩
  · rw [arguments, commaSeparated_eq_row]
    exact hm
  · show (Parse.arguments (run (fuel + 1))).run s = _
    unfold Parse.arguments
    rw [run_after (run_mark_of_comes ho)]
    exact hrun

-- ============================================================ property names

section Names

variable {x : Text} (hx : x.ReadsAsWord)
include hx

theorem ne_of_readsAsWord {u : String} (hu : startsLikeName u = false) :
    (String.ofList x.chars == u) = false := by
  refine beq_false_of_ne ?_
  rintro rfl
  rw [startsLikeName_chars hx] at hu
  cases hu

theorem comes_key (hb : Blank b) : Comes (b ++ (x.chars ++ ':' :: rest)) b .word
    (String.ofList x.chars) (':' :: rest) :=
  comes_word hb hx (endsName_cons (by decide))

/-- The name of a property is read as it is built. -/
theorem makes_propertyName (h : Comes s.rest b .word (String.ofList x.chars) rest)
    (go : Goal → Step src Unit) (r : Role) : Makes (propertyName go r) s ()
      ((propertyIdentifier x).placed (some r) (Text.ofChars b) :: s.trees) rest := by
  obtain ⟨s₁, hrun₁, hts₁, hs₁⟩ :=
    makes_leaf h (ne_empty_of_readsAsWord hx) .propertyIdentifier none
  obtain ⟨s₂, hrun₂, hts₂, hs₂⟩ := makes_role hts₁ r
  refine ⟨s₂, ?_, ?_, by rw [hs₂, hs₁]⟩
  · unfold propertyName
    rw [run_after (run_peek s), h.ahead_eq]
    dsimp only
    rw [run_after hrun₁, hrun₂]
  · rw [hts₂, ofString_chars hx]
    rfl

end Names

end Codemod.Build
