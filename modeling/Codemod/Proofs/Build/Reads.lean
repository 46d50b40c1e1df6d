/-
What it means that an expression is read back.

An expression is read back at three levels: as an operand that accesses and
calls may follow, as an operand that operators may follow, as an expression
that nothing follows but a comma or a closing bracket. Each level says of
every state in front of the characters of the expression what the goal of
that level makes of it, given fuel for eight requests per character.
-/
import Codemod.Proofs.Build.Chars
import Codemod.Proofs.Parse.Climb

namespace Codemod

namespace Node

mutual

/-- There is no call among the accesses that the expression consists of. -/
def callless : Node → Bool
  | ⟨_, k, _, _, _, _, cs, _⟩ =>
    if k = .symbol .callExpression then false
    else if k = .symbol .memberExpression then headCallless cs
    else true

/-- So it is with the first of neighbouring nodes. -/
def headCallless : List Node → Bool
  | [] => true
  | c :: _ => callless c

end

end Node

namespace Build

open Node Parse Parse.Step

-- ============================================================ what follows

/-- The expression ends before the characters. -/
structure Ends (e : Node) (rest : List Char) : Prop where
  apart : Apart rest
  dot : e.is .number = true → rest.head? ≠ some '.'
  next : (ahead rest).mayFollow = true

/-- Any operand ends before the characters, and nothing goes on with it. -/
structure Follows (rest : List Char) : Prop where
  apart : Apart rest
  dot : rest.head? ≠ some '.'
  next : (ahead rest).mayFollow = true
  quiet : (ahead rest).isQuiet = true

/-- Any expression ends before the characters. -/
structure Closes (rest : List Char) : Prop extends Follows rest where
  closing : (ahead rest).isEnd = true

theorem Follows.ends {rest : List Char} (h : Follows rest) (e : Node) : Ends e rest :=
  ⟨h.apart, fun _ => h.dot, h.next⟩

section Ends

variable {e : Node} {b cs rest : List Char} {c : Char} {shape : Shape} {t op : String}

theorem follows_of_comes (h : Comes (c :: cs) b shape t rest) (hc : c ∈ [')', ']', ',', ' '])
    (hnext : (Lexeme.mk shape t t.toList.length).mayFollow = true)
    (hquiet : (Lexeme.mk shape t t.toList.length).isQuiet = true) : Follows (c :: cs) := by
  have hall : ∀ d ∈ [')', ']', ',', ' '], d ∈ [')', ']', ',', '(', '.', ' '] ∧ d ≠ '.' :=
    forall_mem_of_all (by decide)
  refine ⟨?_, fun hd => (hall c hc).2 (Option.some.inj hd), ?_, ?_⟩
  · intro d hd
    obtain rfl := Option.some.inj hd
    exact (hall c hc).1
  · rw [h.ahead_eq, hnext]
  · rw [h.ahead_eq, hquiet]

theorem closes_of_comes (h : Comes (c :: cs) b shape t rest) (hc : c ∈ [')', ']', ',', ' '])
    (hnext : (Lexeme.mk shape t t.toList.length).mayFollow = true)
    (hend : (Lexeme.mk shape t t.toList.length).isEnd = true) : Closes (c :: cs) := by
  have hquiet : (Lexeme.mk shape t t.toList.length).isQuiet = true := by
    simp only [Lexeme.isEnd, Bool.and_eq_true] at hend
    exact hend.1.1
  exact ⟨follows_of_comes h hc hnext hquiet, by rw [h.ahead_eq, hend]⟩

theorem closes_nil : Closes [] := ⟨⟨nofun, nofun, rfl, rfl⟩, rfl⟩

/-- A closing bracket or a comma behind the expression. -/
theorem closes_bracket (ht : t ∈ [")", "]", ","]) : Closes (t.toList ++ rest) := by
  have hsub : ∀ u ∈ [")", "]", ","], u ∈ brackets := by decide
  have hcomes : Comes ([] ++ (t.toList ++ rest)) [] .mark t rest :=
    comes_bracket blank_nil (hsub t ht)
  simp only [List.mem_cons, List.not_mem_nil, or_false] at ht
  rcases ht with rfl | rfl | rfl <;>
    exact closes_of_comes hcomes (by decide) rfl rfl

/-- The brace that closes an object literal, behind a blank. -/
theorem closes_brace : Closes (' ' :: '\x7d' :: rest) := by
  have hcomes : Comes ([' '] ++ ("\x7d".toList ++ rest)) [' '] .mark "\x7d" rest :=
    comes_bracket blank_space (by decide)
  exact closes_of_comes hcomes (by decide) rfl rfl

theorem ends_of_comes (h : Comes (c :: cs) b shape t rest) (hc : c ∈ ['(', '.'])
    (hdot : e.is .number = true → c ≠ '.')
    (hnext : (Lexeme.mk shape t t.toList.length).mayFollow = true) : Ends e (c :: cs) := by
  have hall : ∀ d ∈ ['(', '.'], d ∈ [')', ']', ',', '(', '.', ' '] :=
    forall_mem_of_all (by decide)
  refine ⟨?_, fun he hd => hdot he (Option.some.inj hd), ?_⟩
  · intro d hd
    obtain rfl := Option.some.inj hd
    exact hall c hc
  · rw [h.ahead_eq, hnext]

theorem comes_paren (hb : Blank b) : Comes (b ++ ('(' :: rest)) b .mark "(" rest :=
  comes_bracket hb (t := "(") (by decide)

theorem ends_paren : Ends e ('(' :: rest) :=
  ends_of_comes (comes_paren blank_nil) (by decide) (fun _ => by decide) rfl

theorem ends_dot {x : Text} (hx : x.ReadsAsWord) (he : e.is .number = false) :
    Ends e ('.' :: (x.chars ++ rest)) := by
  refine ends_of_comes (comes_dot blank_nil hx) (by decide) (fun hn => ?_) rfl
  rw [he] at hn
  cases hn

theorem mem_of_precedence (h : (precedence? op).isSome = true) :
    (op ∈ spacedMarks ∧ op ≠ "=>") ∨ op = "in" ∨ op = "instanceof" := by
  unfold precedence? at h
  split at h
  all_goals first
    | exact .inl (by decide)
    | exact .inr (by decide)
    | cases h

/-- An operator between blanks. -/
theorem exists_comes_operator (rest : List Char) (h : (precedence? op).isSome = true ∨ op = "=")
    (hb : Blank b) : ∃ shape, Shape.isSpelled shape = true
      ∧ (Lexeme.mk shape op op.toList.length).mayFollow = true
      ∧ (Lexeme.mk shape op op.toList.length).isQuiet = true
      ∧ Comes (b ++ (op.toList ++ ' ' :: rest)) b shape op (' ' :: rest) := by
  have hblank : EndsName (' ' :: rest) := endsName_cons (by decide)
  have hall : ∀ u ∈ spacedMarks, u ≠ "=>" → (Lexeme.mk .mark u 0).mayFollow = true
      ∧ (Lexeme.mk .mark u 0).isQuiet = true := by decide
  have hmem : (op ∈ spacedMarks ∧ op ≠ "=>") ∨ op = "in" ∨ op = "instanceof" := by
    rcases h with h | rfl
    · exact mem_of_precedence h
    · exact .inl (by decide)
  rcases hmem with ⟨hmark, hne⟩ | rfl | rfl
  · obtain ⟨hnext, hquiet⟩ := hall op hmark hne
    exact ⟨.mark, rfl, hnext, hquiet, comes_spacedMark hb hmark⟩
  · exact ⟨.word, rfl, by decide, by decide, comes_plainWord hb (by decide) hblank⟩
  · exact ⟨.word, rfl, by decide, by decide,
      comes_plainWord hb (by decide) hblank⟩

theorem follows_operator (h : (precedence? op).isSome = true ∨ op = "=") :
    Follows (' ' :: (op.toList ++ ' ' :: rest)) := by
  obtain ⟨shape, -, hnext, hquiet, hcomes⟩ := exists_comes_operator rest h blank_space
  exact follows_of_comes hcomes (by decide) hnext hquiet

theorem follows_equals : Follows (' ' :: '=' :: ' ' :: rest) :=
  follows_operator (.inr (Eq.refl "="))

end Ends

-- ============================================================ what starts

/-- The first token of the expression is one of the given. -/
def Starts (f : Shape → String → Bool) (e : Node) : Prop :=
  ∀ {b rest : List Char}, Blank b → Ends e rest → ∃ shape t rest',
    Comes (b ++ (e.chars ++ rest)) b shape t rest' ∧ t ≠ "" ∧ f shape t = true

-- ================================================================= levels

/-- From `s` the step puts the node, as it is placed, on top of the trees,
and reads up to `rest`. -/
def Gives {src : List Char} (p : Step src Unit) (s : Progress src) (n : Node)
    (rest : List Char) : Prop :=
  ∃ m s', Mirrors m n ∧ p.run s = some ((), s') ∧ s'.trees = m :: s.trees ∧ s'.rest = rest

/-- A node is closed around trees that mirror the children it is built with. -/
theorem exists_close {src : List Char} {s : Progress src} {cs base ks : List Node}
    {l : Text} (sym : Symbol) (k : Node) (hs : s.trees = cs.reverse ++ base) (hsym : sym ∉ [.string, .objectAssignmentPattern]) (hk : k.lead = [])
    (h : List.Forall₂ Mirrors cs (k.placed k.role l :: ks)) :
    ∃ m s', Mirrors m ((branch sym (k :: ks)).placed none l)
      ∧ (close base.length sym).run s = some ((), s') ∧ s'.trees = m :: base
      ∧ s'.rest = s.rest := by
  obtain ⟨s', hrun, hts, hs'⟩ := makes_close hs sym
  exact ⟨_, s', mirrors_gather hsym hk h, hrun, hts, hs'⟩

/-- The last tree is given a role. -/
theorem exists_role {src : List Char} {s : Progress src} {m n : Node} {ts : List Node}
    {r₀ : Option Role} {l : Text} (hm : Mirrors m (n.placed r₀ l)) (hts : s.trees = m :: ts)
    (r : Role) : ∃ m' s', Mirrors m' (n.placed (some r) l) ∧ (role r).run s = some ((), s')
      ∧ s'.trees = m' :: ts ∧ s'.rest = s.rest := by
  obtain ⟨s', hrun, hts', hs'⟩ := makes_role hts r
  rw [hm.lead_eq] at hts'
  exact ⟨_, s', hm.placed (some r) l, hrun, hts', hs'⟩

/-- Parameters behind `async`, if an arrow function comes. -/
def asyncArrow {src : List Char} (go : Goal → Step src Unit) : Step src Bool := attempt do
  token "async"
  go .parameters
  role .parameters
  seesArrow

/-- If the expression is the name `async` and parentheses follow, no arrow
follows them. -/
def NoAsyncArrow {src : List Char} (fuel : Nat) (s : Progress src) (e : Node)
    (rest : List Char) : Prop :=
  e.chars = "async".toList → (ahead rest).isSpelled "(" = true →
    ∀ n, fuel = n + 1 → (asyncArrow (run n)).run s = some (false, s)

/-- Asked for an operand with its accesses, the parser reads the expression
and goes on with the accesses behind it. -/
def ReadsChain (e : Node) : Prop :=
  ∀ {src : List Char} {s : Progress src} {fuel : Nat} {calls : Bool} {b rest : List Char},
    (calls = true ∨ e.callless = true) → Blank b → Ends e rest →
    8 * e.chars.length ≤ fuel + 3 → s.rest = b ++ (e.chars ++ rest) →
    NoAsyncArrow fuel s e rest →
    ∃ m s' fuel', Mirrors m (e.placed none (Text.ofChars b)) ∧ s'.trees = m :: s.trees
      ∧ s'.rest = rest ∧ fuel ≤ fuel' + e.chars.length
      ∧ (run fuel (.access calls)).run s = (run fuel' (.accesses s.trees.length calls)).run s'

/-- Asked for an operand, the parser reads the expression. -/
def ReadsOperand (e : Node) : Prop :=
  ∀ {src : List Char} {s : Progress src} {fuel : Nat} {b rest : List Char},
    Blank b → Follows rest → 8 * e.chars.length ≤ fuel + 2 →
    s.rest = b ++ (e.chars ++ rest) →
    Gives (run fuel .unary) s (e.placed none (Text.ofChars b)) rest

/-- Asked for an expression, the parser reads the expression. -/
def ReadsExpression (e : Node) : Prop :=
  ∀ {src : List Char} {s : Progress src} {fuel : Nat} {b rest : List Char},
    Blank b → Closes rest → 8 * e.chars.length ≤ fuel →
    s.rest = b ++ (e.chars ++ rest) →
    Gives (run fuel (.assignment false)) s (e.placed none (Text.ofChars b)) rest

/-- What comes next stands neither behind a pattern nor behind a list. -/
def Hangs (rest : List Char) : Prop := [",", ")", "]", "\x7d"].any (ahead rest).isSpelled = false

/-- What comes next is no default value either. -/
def Stuck (rest : List Char) : Prop := Hangs rest ∧ (ahead rest).isSpelled "=" = false

theorem stuck_of_ahead {rest : List Char} {l : Lexeme} (h : ahead rest = l)
    (hl : [",", ")", "]", "\x7d", "="].any l.isSpelled = false) : Stuck rest := by
  simp only [List.any_cons, List.any_nil, Bool.or_eq_false_iff] at hl
  simp [Stuck, Hangs, h, hl]

/-- Asked for a pattern, the parser reads all of the expression if it reads
anything, or gets stuck. -/
def TriesTarget (e : Node) : Prop :=
  ∀ {src : List Char} {s s' : Progress src} {fuel : Nat} {b rest : List Char},
    Blank b → Ends e rest → 8 * e.chars.length ≤ fuel + 1 →
    s.rest = b ++ (e.chars ++ rest) → (run fuel (.target false)).run s = some ((), s') →
    s'.rest = rest ∨ Hangs s'.rest ∧ (e.is .assignmentExpression = false → Stuck s'.rest)

/-- So it is with a pattern that may have a default value. -/
def TriesDefault (e : Node) : Prop :=
  ∀ {src : List Char} {s s' : Progress src} {fuel : Nat} {b rest : List Char},
    Blank b → Closes rest → 8 * e.chars.length ≤ fuel →
    s.rest = b ++ (e.chars ++ rest) → (run fuel .targetWithDefault).run s = some ((), s') →
    s'.rest = rest ∨ Stuck s'.rest

/-- The expression is read back, and is mistaken for no pattern. -/
structure Reads (e : Node) : Prop where
  single : e.is .sequenceExpression = false
  starts : Starts startsOperand e
  startsChain : e.kind.isAny primarySymbols = true → Starts Parse.startsChain e
  chain : e.kind.isAny primarySymbols = true → ReadsChain e
  operand : e.kind.isAny looseSymbols = false → ReadsOperand e
  expression : ReadsExpression e
  target : TriesTarget e
  default : TriesDefault e

-- =============================================================== climbing

section Climbing

variable {e : Node} {b rest : List Char}

theorem length_pos_of_starts {f : Shape → String → Bool} (h : Starts f e) :
    0 < e.chars.length := by
  obtain ⟨shape, t, rest', hcomes, hne, -⟩ := h blank_nil (closes_nil.ends e)
  refine List.length_pos_of_ne_nil fun hnil => ?_
  have heq : [] = t.toList ++ rest' := by
    have heq := hcomes.eq
    rwa [hnil] at heq
  exact hne (String.toList_eq_nil_iff.1 (List.append_eq_nil_iff.1 heq.symm).1)

theorem Starts.mono {f g : Shape → String → Bool} (h : Starts f e)
    (hfg : ∀ shape t, f shape t = true → g shape t = true) : Starts g e := by
  intro b rest hb hr
  obtain ⟨shape, t, rest', hcomes, hne, hf⟩ := h hb hr
  exact ⟨shape, t, rest', hcomes, hne, hfg _ _ hf⟩

theorem startsOperand_of_startsChain (shape : Shape) (t : String)
    (h : Parse.startsChain shape t = true) : startsOperand shape t = true := by
  rw [startsOperand, h]
  rfl

/-- No access follows where no operand goes on. -/
theorem ReadsChain.operand {f : Shape → String → Bool} (hs : Starts f e)
    (hf : ∀ shape t, f shape t = true → startsOperand shape t = true)
    (hno : ∀ u ∈ unaryOperators, f .word u = false ∧ f .mark u = false) (h : ReadsChain e) :
    ReadsOperand e := by
  intro src s fuel b rest hb hr hfuel hrest
  have hpos := length_pos_of_starts hs
  obtain ⟨shape, t, rest', hcomes, -, hstart⟩ := hs hb (hr.ends e)
  rw [← hrest] at hcomes
  have hahead : f (ahead s.rest).shape (ahead s.rest).text = true := by
    rw [hcomes.ahead_eq, hstart]
  have hplain : unaryOperators.any (ahead s.rest).isSpelled = false := by
    refine List.any_eq_false.2 fun u hu => ?_
    rw [isSpelled_eq_false_of_starts hahead (hno u hu).1 (hno u hu).2]
    decide
  obtain ⟨fuel, rfl⟩ : ∃ n, fuel = n + 1 := ⟨fuel - 1, by omega⟩
  have hasync : NoAsyncArrow fuel s e rest := by
    intro _ hcall
    have hquiet := hr.quiet
    simp [Lexeme.isQuiet, hcall] at hquiet
  obtain ⟨m, s', fuel', hm, hts, hs', hle, hrun⟩ := h (.inl rfl) hb (hr.ends e)
    (by omega) hrest hasync
  obtain ⟨fuel', rfl⟩ : ∃ n, fuel' = n + 1 := ⟨fuel' - 1, by omega⟩
  have hquiet : (ahead s'.rest).isQuiet = true := by rw [hs', hr.quiet]
  rw [run_accesses hquiet] at hrun
  exact ⟨m, s', hm, run_unary hcomes (hf _ _ hstart) hplain hrun
    hquiet, hts, hs'⟩

/-- No operator follows where no expression goes on. -/
theorem ReadsOperand.expression (hs : Starts startsOperand e) (h : ReadsOperand e) :
    ReadsExpression e := by
  intro src s fuel b rest hb hr hfuel hrest
  have hpos := length_pos_of_starts hs
  obtain ⟨shape, t, rest', hcomes, -, hstart⟩ := hs hb (hr.ends e)
  rw [← hrest] at hcomes
  obtain ⟨fuel, rfl⟩ : ∃ n, fuel = n + 3 := ⟨fuel - 3, by omega⟩
  have hless : 8 * e.chars.length ≤ fuel + 1 + 2 := by omega
  obtain ⟨m, s', hm, hrun, hts, hs'⟩ := h hb hr.toFollows hless hrest
  have hend : (ahead s'.rest).isEnd = true := by rw [hs', hr.closing]
  have hnone : (precedence? (ahead s'.rest).text).isNone = true := by
    simp only [Lexeme.isEnd, Bool.and_eq_true] at hend
    exact hend.1.2
  exact ⟨m, s', hm, run_assignment hcomes hstart (run_binary hcomes hrun (.inl hnone) 1) hend,
    hts, hs'⟩

end Climbing

end Build

end Codemod
