/-
Reading operators, assignments and arrow functions back.

An operand is read up to the operator behind it, and the operator's other
operand up to what ends the whole expression. A sign in front of an operand
is read as built if the operand does not start with the same sign, and the
body of an arrow function if it does not start like a block.
-/
import Codemod.Proofs.Build.Literals

namespace Codemod.Build

open Node Parse Parse.Step

variable {src : List Char} {s s' : Progress src} {fuel : Nat} {b rest : List Char}
  {shape : Shape} {t op : String} {a e l r : Node} {x : Text} {names : List Text}

-- =============================================================== operands

/-- The places where an expression is the operand of an operator. -/
def operandPlaces : List (Symbol × Role) :=
  [(.unaryExpression, .argument), (.binaryExpression, .left), (.binaryExpression, .right)]

theorem not_loose_of_primary (h : e.kind.isAny primarySymbols = true) :
    e.kind.isAny looseSymbols = false := by
  refine List.any_eq_false.2 fun sym hsym => ?_
  have hall : ∀ u ∈ looseSymbols, u ∉ primarySymbols := by decide
  have hno : e.is sym = false := is_eq_false h (hall sym hsym)
  simpa [Node.is] using hno

theorem needs_operand {sym : Symbol} {role : Role} (hp : (sym, role) ∈ operandPlaces) :
    needsParentheses e.kind sym (some role) = e.kind.isAny looseSymbols := by
  unfold needsParentheses
  split
  · next hk => rw [not_loose_of_primary hk]
  · simp only [operandPlaces, List.mem_cons, Prod.mk.injEq, List.not_mem_nil, or_false] at hp
    rcases hp with ⟨rfl, rfl⟩ | ⟨rfl, rfl⟩ | ⟨rfl, rfl⟩ <;> rfl

/-- The expression binds no looser than the operators around it. -/
structure Binds (e : Node) : Prop extends Reads e where
  tight : e.kind.isAny looseSymbols = false

theorem Binds.reads_operand (h : Binds e) : ReadsOperand e := h.operand h.tight

theorem Reads.binds_parenthesized (h : Reads e) : Binds (Build.parenthesized e) :=
  ⟨h.parenthesized, by rfl⟩

theorem Reads.binds {sym : Symbol} {role : Role} (hp : (sym, role) ∈ operandPlaces)
    (h : Reads e) : Binds (Build.operand e sym role) := by
  rw [Build.operand, needs_operand hp]
  split
  · exact h.binds_parenthesized
  · next htight => exact ⟨h, Bool.eq_false_iff.2 htight⟩

theorem Binds.is_eq_false {sym : Symbol} (h : Binds e) (hsym : sym ∈ looseSymbols) :
    e.is sym = false := by
  have htight := List.any_eq_false.1 h.tight sym hsym
  simpa [Node.is] using htight

/-- What is read as an expression is read back if operators need parentheses
around it. -/
theorem Reads.of_expression (hk : e.kind.isAny looseSymbols = true)
    (hsingle : e.is .sequenceExpression = false) (hs : Starts startsOperand e)
    (h : ReadsExpression e) (ht : TriesTarget e) (hd : TriesDefault e) : Reads e where
  single := hsingle
  starts := hs
  startsChain hprimary := absurd (not_loose_of_primary hprimary) (by rw [hk]; decide)
  chain hprimary := absurd (not_loose_of_primary hprimary) (by rw [hk]; decide)
  operand htight := absurd htight (by rw [hk]; decide)
  expression := h
  target := ht
  default := hd

-- ================================================================== unary

/-- The blank between a unary operator and its operand. -/
def unaryLead (op : String) : List Char := if wordOperators.contains op then [' '] else []

theorem unary_eq (op : String) (a : Node) : unary op a
    = branch .unaryExpression [inRole (Node.token op) .operator,
        (operand a .unaryExpression .argument).placed (some .argument)
          (Text.ofChars (unaryLead op))] := by
  unfold unary unaryLead
  split <;> rfl

/-- The shape of a unary operator. -/
def unaryShape (op : String) : Shape := if wordOperators.contains op then .word else .mark

@[simp] theorem chars_unary (op : String) (a : Node) : (unary op a).chars
    = op.toList ++ (unaryLead op ++ (operand a .unaryExpression .argument).chars) := by
  simp [unary_eq, inRole]

theorem blank_unaryLead (op : String) : Blank (unaryLead op) := by
  unfold unaryLead
  split
  · exact blank_space
  · exact blank_nil

theorem head_of_startsOperand (h : startsOperand shape t = true) :
    t.toList.head? ≠ some '=' := by
  intro hhead
  have hall : ∀ u ∈ ["\"", "'"] ++ ["(", "["] ++ ["new", "\x7b"] ++ unaryOperators,
      u.toList.head? ≠ some '=' := by decide
  have hname : startsLikeName t = false := by
    rw [startsLikeName, hhead]
    rfl
  have hlisted : t ∈ ["\"", "'"] ++ ["(", "["] ++ ["new", "\x7b"] ++ unaryOperators := by
    simp only [startsOperand, Parse.startsChain, hhead, hname, Bool.or_eq_true, Bool.and_eq_true,
      List.contains_iff_mem, beq_iff_eq] at h
    simp only [List.mem_append]
    rcases h with (((((h | h) | h) | h) | h) | h) | h
    · exact absurd h.2 (by decide)
    · exact .inl (.inl (.inl h.2))
    · exact absurd h.1.2 (by decide)
    · exact .inl (.inl (.inr h.2))
    · exact .inl (.inr (by simp [h.2]))
    · exact .inl (.inr (by simp [h.2]))
    · exact .inr h.2
  exact hall t hlisted hhead

/-- An operand starts with no equals sign. -/
theorem exists_head (hs : Starts startsOperand e) : ∃ c cs, e.chars = c :: cs ∧ c ≠ '=' := by
  obtain ⟨shape, t, rest', hcomes, hne, hstart⟩ := hs blank_nil (closes_nil.ends e)
  have heq : e.chars = t.toList ++ rest' := by
    have heq := hcomes.eq
    rwa [List.append_nil] at heq
  cases ht : t.toList with
  | nil => exact absurd (String.toList_eq_nil_iff.1 ht) hne
  | cons c cs =>
      refine ⟨c, cs ++ rest', by rw [heq, ht]; rfl, ?_⟩
      rintro rfl
      exact head_of_startsOperand hstart (by rw [ht]; rfl)

/-- A unary operator in front of its operand. -/
theorem comes_unaryOperator {c : Char} (hop : op ∈ unaryOperators) (hb : Blank b)
    (heq : c ≠ '=') (hsign : op ∈ ["+", "-"] → op.toList ≠ [c]) :
    Comes (b ++ (op.toList ++ (unaryLead op ++ c :: rest))) b (unaryShape op) op
      (unaryLead op ++ c :: rest) := by
  have hends : EndsName (' ' :: c :: rest) := endsName_cons (by decide)
  simp only [unaryOperators, List.mem_cons, List.not_mem_nil, or_false] at hop
  rcases hop with rfl | rfl | rfl | rfl | rfl | rfl | rfl
  · exact comes_sign hb (by decide) heq (.inl rfl)
  · exact comes_bracket hb (by decide)
  · exact comes_sign hb (by decide) heq (.inr (hsign (by decide)))
  · exact comes_sign hb (by decide) heq (.inr (hsign (by decide)))
  · exact comes_plainWord hb (by decide) hends
  · exact comes_plainWord hb (by decide) hends
  · exact comes_plainWord hb (by decide) hends

/-- The operand of a sign does not start with the same sign. -/
def Unmerged (op : String) (a : Node) : Prop :=
  op ∈ ["+", "-"] → (operand a .unaryExpression .argument).chars.head? ≠ op.toList.head?

section Unary

variable (hop : op ∈ unaryOperators) (h : Reads a) (hsign : Unmerged op a)
include hop h hsign

theorem comes_unary (hb : Blank b) :
    Comes (b ++ ((unary op a).chars ++ rest)) b (unaryShape op) op
      (unaryLead op ++ ((operand a .unaryExpression .argument).chars ++ rest)) := by
  have hp : (Symbol.unaryExpression, Role.argument) ∈ operandPlaces := by decide
  obtain ⟨c, cs, hcs, hne⟩ := exists_head (Reads.binds hp h).starts
  have hsame : op ∈ ["+", "-"] → op.toList ≠ [c] := by
    intro hmem hop
    have hno := hsign hmem
    rw [hcs, hop] at hno
    exact hno rfl
  have hcomes : Comes (b ++ (op.toList ++ (unaryLead op ++ c :: (cs ++ rest)))) b
      (unaryShape op) op (unaryLead op ++ c :: (cs ++ rest)) :=
    comes_unaryOperator hop hb hne hsame
  rw [chars_unary, hcs]
  simpa only [List.append_assoc, List.cons_append] using hcomes

theorem reads_unary : ReadsOperand (unary op a) := by
  have hp : (Symbol.unaryExpression, Role.argument) ∈ operandPlaces := by decide
  intro src s fuel b rest hb hr hfuel hrest
  have hcomes : Comes s.rest b (unaryShape op) op
      (unaryLead op ++ ((operand a .unaryExpression .argument).chars ++ rest)) := by
    rw [hrest]
    exact comes_unary hop h hsign hb
  have hall : ∀ u ∈ unaryOperators, u ≠ "" ∧ (unaryShape u).isSpelled = true
      ∧ (Node.token u).is .objectAssignmentPattern = false := by decide
  obtain ⟨hne, hshape, hsettled⟩ := hall op hop
  have hpos := List.length_pos_of_ne_nil fun hnil => hne (String.toList_eq_nil_iff.1 hnil)
  rw [chars_unary, List.length_append, List.length_append] at hfuel
  obtain ⟨fuel, rfl⟩ : ∃ n, fuel = n + 1 := ⟨fuel - 1, by omega⟩
  have hsees : (seesAny unaryOperators : Step src Bool).run s = some (true, s) := by
    have hany : unaryOperators.any (ahead s.rest).isSpelled = true := by
      refine List.any_eq_true.2 ⟨op, hop, ?_⟩
      rw [isSpelled_ahead hcomes, hshape, beq_self_eq_true]
      rfl
    rw [run_seesAny, hany]
  obtain ⟨s₁, hrun₁, hts₁, hs₁⟩ := makes_bare hcomes hne (some .operator)
  have hless : 8 * (operand a .unaryExpression .argument).chars.length ≤ fuel + 2 := by omega
  obtain ⟨m, s₂, hm, hrun₂, hts₂, hs₂⟩ :=
    (Reads.binds hp h).reads_operand (blank_unaryLead op) hr hless hs₁
  obtain ⟨n, s₃, hn, hrun₃, hts₃, hs₃⟩ := exists_role hm hts₂ .argument
  have htrees : s₃.trees
      = [(Node.token op).placed (some .operator) (Text.ofChars b), n].reverse ++ s.trees := by
    rw [hts₃, hts₁]
    rfl
  obtain ⟨m', s₄, hm', hrun₄, hts₄, hs₄⟩ := exists_close .unaryExpression
    (inRole (Node.token op) .operator) htrees (by decide) rfl
    (.cons (mirrors_self hsettled rfl) (.cons hn .nil))
  refine ⟨m', s₄, ?_, ?_, hts₄, by rw [hs₄, hs₃, hs₂]⟩
  · rwa [unary_eq]
  · show (Parse.unary (run fuel)).run s = _
    unfold Parse.unary
    rw [run_after (run_mark_of_comes hcomes), run_after hsees]
    simp only [if_true]
    rw [run_after hrun₁, run_after hrun₂, run_after hrun₃, hrun₄]

theorem Reads.unary : Reads (unary op a) := by
  have hall : ∀ u ∈ unaryOperators, startsOperand (unaryShape u) u = true
      ∧ startsNoTarget (unaryShape u) u = true ∧ u ≠ "" := by decide
  obtain ⟨hstart, htarget, hne⟩ := hall op hop
  have hs {f : Shape → String → Bool} (hf : f (unaryShape op) op = true) :
      Starts f (Build.unary op a) := fun hb _ =>
    ⟨unaryShape op, op, _, comes_unary hop h hsign hb, hne, hf⟩
  exact .of_operand rfl rfl rfl (hs hstart) (reads_unary hop h hsign)
    (tries_of_startsNoTarget (hs htarget))

end Unary

-- ================================================================ binary

theorem Reads.binds_left (op : String) (h : Reads l) : Binds (leftOperand op l) := by
  unfold leftOperand
  split
  · exact h.binds_parenthesized
  · next hwrap =>
      rw [Bool.or_eq_true, not_or, needs_operand (by decide)] at hwrap
      exact ⟨h, Bool.eq_false_iff.2 hwrap.1⟩

theorem one_le_precedence {p : Nat} (h : precedence? op = some p) : 1 ≤ p := by
  unfold precedence? at h
  split at h
  all_goals first
    | exact Option.some.inj h ▸ by decide
    | cases h

/-- The operator that comes next is read with both its operands. -/
theorem run_operators_some {level p : Nat} (fuel start : Nat) (h : Comes s.rest b shape op rest)
    (hshape : shape.isSpelled = true) (hp : precedence? op = some p) (hlevel : level ≤ p)
    (hlast : (lastIsAny [.arrowFunction] : Step src Bool).run s = some (false, s)) :
    (run (fuel + 1) (.operators start level false) : Step src Unit).run s = (do
      role .left
      bare (some .operator)
      run fuel (.binary (if op == "**" then p else p + 1) false)
      role .right
      close start .binaryExpression
      run fuel (.operators start level false) : Step src Unit).run s := by
  have hnext : (nextOperator false : Step src _).run s = some (some (op, p), s) := by
    have hspelled : ((ahead s.rest).shape == .word || (ahead s.rest).shape == .mark) = true := by
      rw [h.ahead_eq]
      exact hshape
    unfold nextOperator
    rw [run_after (run_peek s)]
    simp only [hspelled, Bool.not_true, Bool.false_and, Bool.false_eq_true, if_false]
    rw [h.ahead_eq]
    simp only [hp]
    rfl
  show (operators (run fuel) start level false).run s = _
  unfold operators
  rw [run_after hlast]
  simp only [Bool.false_eq_true, if_false]
  rw [run_after hnext]
  simp only [Nat.not_lt.2 hlevel, if_false]

theorem mem_operators (hop : (precedence? op).isSome = true) :
    op ∈ spacedMarks ++ ["in", "instanceof"] := by
  rw [List.mem_append]
  rcases mem_of_precedence hop with h | h
  · exact .inl h.1
  · exact .inr (by simpa using h)

theorem settled_operator (hop : (precedence? op).isSome = true) : (Node.token op).IsSettled := by
  have hall : ∀ u ∈ spacedMarks ++ ["in", "instanceof"],
      (Node.token u).is .objectAssignmentPattern = false := by decide
  exact hall op (mem_operators hop)

theorem no_operator_of_closes (h : Closes rest) :
    (precedence? (ahead rest).text).isNone = true := by
  have hend := h.closing
  simp only [Lexeme.isEnd, Bool.and_eq_true] at hend
  exact hend.1.2

section Binary

variable (hop : (precedence? op).isSome = true)
include hop

/-- Behind its left operand an operator is read with its right operand. -/
theorem exists_run_operator {m : Node} {ts : List Node} {lead : Text} (hr : Binds r)
    (hcloses : Closes rest) (hl : l.is .arrowFunction = false)
    (hm : Mirrors m (l.placed none lead)) (hts : s.trees = m :: ts)
    (hfuel : 8 * r.chars.length ≤ fuel + 3)
    (hs : s.rest = ' ' :: (op.toList ++ ' ' :: (r.chars ++ rest))) :
    ∃ m' s', Mirrors m' ((branch .binaryExpression [inRole l .left,
        spaced (Node.token op) .operator, spaced r .right]).placed none lead)
      ∧ s'.trees = m' :: ts ∧ s'.rest = rest
      ∧ (run (fuel + 3) (.operators ts.length 1 false)).run s = some ((), s') := by
  have hend := no_operator_of_closes hcloses
  obtain ⟨p, hp⟩ := Option.isSome_iff_exists.1 hop
  have hne : op ≠ "" := by
    rintro rfl
    cases hp
  obtain ⟨shape, hshape, -, -, hcomes⟩ :=
    exists_comes_operator (r.chars ++ rest) (.inl hop) blank_space
  have hoperator : Comes s.rest [' '] shape op (' ' :: (r.chars ++ rest)) := by
    rw [hs]
    exact hcomes
  have hrun := run_operators_some (fuel + 2) ts.length hoperator hshape hp
    (one_le_precedence hp) (not_arrow hl hm hts)
  obtain ⟨n, s₁, hn, hrun₁, hts₁, hs₁⟩ := exists_role hm hts .left
  rw [← hs₁] at hoperator
  obtain ⟨s₂, hrun₂, hts₂, hs₂⟩ := makes_bare hoperator hne (some .operator)
  have hs₂' : s₂.rest = [' '] ++ (r.chars ++ rest) := hs₂
  obtain ⟨shape', t, rest', hfirst, -, -⟩ := hr.starts blank_space (hcloses.ends r)
  rw [← hs₂'] at hfirst
  have hless : 8 * r.chars.length ≤ fuel + 1 + 2 := by omega
  obtain ⟨k, s₃, hk, hunary, hts₃, hs₃⟩ :=
    hr.reads_operand blank_space hcloses.toFollows hless hs₂'
  have hrun₃ := run_binary hfirst hunary (.inl (by rw [hs₃, hend]))
    (if op == "**" then p else p + 1)
  obtain ⟨k', s₄, hk', hrun₄, hts₄, hs₄⟩ := exists_role hk hts₃ .right
  have htrees : s₄.trees = [n, spaced (Node.token op) .operator, k'].reverse ++ ts := by
    rw [hts₄, hts₂, hts₁]
    rfl
  obtain ⟨m', s₅, hm', hrun₅, hts₅, hs₅⟩ := exists_close .binaryExpression (inRole l .left)
    htrees (by decide) rfl
    (.cons hn (.cons (mirrors_self (settled_operator hop) rfl) (.cons hk' .nil)))
  have hs₅' : s₅.rest = rest := by rw [hs₅, hs₄, hs₃]
  refine ⟨m', s₅, hm', hts₅, hs₅', ?_⟩
  rw [hrun, run_after hrun₁, run_after hrun₂, run_after hrun₃, run_after hrun₄,
    run_after hrun₅, run_operators (.inl (by rw [hs₅', hend]))]

theorem reads_binary (hl : Reads l) (hr : Reads r) : ReadsExpression (binary l op r) := by
  have hl' := hl.binds_left op
  intro src s fuel b rest hb hcloses hfuel hrest
  have hrest : s.rest = b ++ ((leftOperand op l).chars ++ ' ' :: (op.toList
      ++ ' ' :: ((operand r .binaryExpression .right).chars ++ rest))) := by
    rw [hrest, chars_binary]
    simp
  rw [chars_binary] at hfuel
  simp only [List.length_append, List.length_cons] at hfuel
  obtain ⟨fuel, rfl⟩ : ∃ n, fuel = n + 5 := ⟨fuel - 5, by omega⟩
  have hfollows : Follows (' ' :: (op.toList
      ++ ' ' :: ((operand r .binaryExpression .right).chars ++ rest))) :=
    follows_operator (.inl hop)
  obtain ⟨shape, t, rest', hcomes, -, hstart⟩ := hl'.starts hb (hfollows.ends _)
  rw [← hrest] at hcomes
  have hless : 8 * (leftOperand op l).chars.length ≤ fuel + 3 + 2 := by omega
  obtain ⟨m, s₁, hm, hrun₁, hts₁, hs₁⟩ := hl'.reads_operand hb hfollows hless hrest
  have hless' : 8 * (operand r .binaryExpression .right).chars.length ≤ fuel + 3 := by omega
  obtain ⟨m', s', hm', hts', hs', hrun₂⟩ := exists_run_operator hop (hr.binds (by decide))
    hcloses (hl'.is_eq_false (by decide)) hm hts₁ hless' hs₁
  refine ⟨m', s', hm', run_assignment hcomes hstart ?_ (by rw [hs', hcloses.closing]), hts', hs'⟩
  show (Parse.binary (run (fuel + 3)) 1 false : Step src Unit).run s = _
  unfold Parse.binary
  rw [run_after (run_mark_of_comes hcomes), run_after hrun₁, hrun₂]

theorem stuck_operator : Stuck (' ' :: (op.toList ++ ' ' :: rest)) := by
  have hall : ∀ w ∈ [Shape.word, .mark], ∀ u ∈ spacedMarks ++ ["in", "instanceof"],
      (precedence? u).isSome = true →
        [",", ")", "]", "\x7d", "="].any (Lexeme.mk w u 0).isSpelled = false := by decide
  obtain ⟨shape, hshape, -, -, hcomes⟩ :=
    exists_comes_operator rest (.inl hop) blank_space
  have hmem : shape ∈ [Shape.word, .mark] := by simpa [Shape.isSpelled] using hshape
  exact stuck_of_ahead hcomes.ahead_eq (hall shape hmem op (mem_operators hop) hop)

theorem Reads.binary (hl : Reads l) (hr : Reads r) : Reads (binary l op r) := by
  have hl' := hl.binds_left op
  have hchars : (Build.binary l op r).chars = (leftOperand op l).chars ++ ' ' :: (op.toList
      ++ ' ' :: (Build.operand r .binaryExpression .right).chars) := chars_binary l r op
  have hends (rest : List Char) (_ : Ends (Build.binary l op r) rest) :
      Ends (leftOperand op l) (' ' :: (op.toList
        ++ ' ' :: (Build.operand r .binaryExpression .right).chars) ++ rest)
      ∧ Stuck (' ' :: (op.toList
        ++ ' ' :: (Build.operand r .binaryExpression .right).chars) ++ rest) := by
    rw [List.cons_append, List.append_assoc, List.cons_append]
    exact ⟨(follows_operator (.inl hop)).ends _, stuck_operator hop⟩
  have hs : Starts startsOperand (Build.binary l op r) :=
    Starts.front hl'.starts hchars fun rest hr => (hends rest hr).1
  have ht : TriesTarget (Build.binary l op r) :=
    TriesTarget.front hl'.target (hl'.is_eq_false (by decide)) hchars fun rest hr =>
      ⟨(hends rest hr).1, (hends rest hr).2.1, fun _ => (hends rest hr).2⟩
  exact .of_expression rfl rfl hs (reads_binary hop hl hr) ht
    (TriesTarget.default hs rfl ht)

end Binary

-- ============================================================= assignments

theorem comes_equals (hb : Blank b) :
    Comes (b ++ ('=' :: ' ' :: rest)) b .mark "=" (' ' :: rest) :=
  comes_spacedMark (t := "=") hb (by decide)

theorem ahead_equals : ahead (' ' :: '=' :: ' ' :: rest) = ⟨.mark, "=", 1⟩ := by
  have hcomes : Comes (' ' :: '=' :: ' ' :: rest) [' '] .mark "=" (' ' :: rest) :=
    comes_equals blank_space
  exact hcomes.ahead_eq

section Assignment

variable (hk : l.is .identifier = true ∨ l.is .memberExpression = true)
include hk

theorem isAny_target {m : Node} {lead : Text} (hm : Mirrors m (l.placed none lead)) :
    m.isAny (.object :: .array :: Node.simpleTargets) = true
      ∧ m.isAny [.object, .array] = false := by
  simp only [Node.is, beq_iff_eq] at hk
  have his (sym : Symbol) : m.is sym = (l.kind == .symbol sym) := by
    have hkind : m.kind = l.kind := hm.kind_eq
    rw [Node.is, hkind]
  rcases hk with hk | hk <;> simp [Node.isAny, Node.simpleTargets, his, hk]

theorem Reads.binds_target (hl : Reads l) : Binds l := by
  simp only [Node.is, beq_iff_eq] at hk
  refine ⟨hl, ?_⟩
  rcases hk with hk | hk <;> rw [hk] <;> rfl

theorem reads_assignment (hl : Reads l) (hr : Reads r) : ReadsExpression (assignment l r) := by
  have hl' := hl.binds_target hk
  intro src s fuel b rest hb hcloses hfuel hrest
  have hrest : s.rest = b ++ (l.chars ++ ' ' :: '=' :: ' ' :: (r.chars ++ rest)) := by
    rw [hrest, chars_assignment]
    simp
  rw [chars_assignment] at hfuel
  simp only [List.length_append, List.length_cons] at hfuel
  obtain ⟨fuel, rfl⟩ : ∃ n, fuel = n + 3 := ⟨fuel - 3, by omega⟩
  obtain ⟨shape, t, rest', hcomes, -, hstart⟩ := hl.starts hb (follows_equals.ends l)
  rw [← hrest] at hcomes
  have hahead : startsOperand (ahead s.rest).shape (ahead s.rest).text = true := by
    rw [hcomes.ahead_eq, hstart]
  have hless : 8 * l.chars.length ≤ fuel + 1 + 2 := by omega
  obtain ⟨m, s₁, hm, hunary, hts₁, hs₁⟩ := hl'.reads_operand hb follows_equals hless hrest
  have hnext : ahead s₁.rest = ⟨.mark, "=", 1⟩ := by rw [hs₁, ahead_equals]
  have hrun₁ : (conditional (run (fuel + 2)) false : Step src Unit).run s = some ((), s₁) :=
    run_conditional hcomes (run_binary hcomes hunary (.inl (by rw [hnext]; rfl)) 1)
      (by rw [hnext]; rfl)
  have hsees : (sees "=" : Step src Bool).run s₁ = some (true, s₁) := by
    rw [run_sees, hnext]
    rfl
  obtain ⟨htarget, hpattern⟩ := isAny_target hk hm
  have hlast : (lastIsAny (.object :: .array :: Node.simpleTargets) : Step src Bool).run s₁
      = some (true, s₁) := by
    rw [run_lastIsAny, hts₁, List.head?_cons, Option.map_some, htarget]
    rfl
  have hplain : (lastIsAny [.object, .array] : Step src Bool).run s₁ = some (false, s₁) := by
    rw [run_lastIsAny, hts₁, List.head?_cons, Option.map_some, hpattern]
    rfl
  obtain ⟨n, s₂, hn, hrun₂, hts₂, hs₂⟩ := exists_role hm hts₁ .left
  have hequals : Comes s₂.rest [' '] .mark "=" (' ' :: (r.chars ++ rest)) := by
    rw [hs₂, hs₁]
    exact comes_equals blank_space
  obtain ⟨s₃, hrun₃, hts₃, hs₃⟩ := makes_token hequals rfl (by decide)
  have hs₃' : s₃.rest = [' '] ++ (r.chars ++ rest) := hs₃
  have hless' : 8 * r.chars.length ≤ fuel + 2 := by omega
  obtain ⟨k, s₄, hk, hrun₄, hts₄, hs₄⟩ := hr.expression blank_space hcloses hless' hs₃'
  obtain ⟨k', s₅, hk', hrun₅, hts₅, hs₅⟩ := exists_role hk hts₄ .right
  have htrees : s₅.trees = [n, spacedToken "=", k'].reverse ++ s.trees := by
    rw [hts₅, hts₃, hts₂]
    rfl
  obtain ⟨m', s₆, hm', hrun₆, hts₆, hs₆⟩ := exists_close .assignmentExpression (inRole l .left)
    htrees (by decide) rfl (.cons hn (.cons (mirrors_self rfl rfl) (.cons hk' .nil)))
  refine ⟨m', s₆, hm', ?_, hts₆, by rw [hs₆, hs₅, hs₄]⟩
  show (Parse.assignment (run (fuel + 2)) false : Step src Unit).run s = _
  unfold Parse.assignment
  rw [run_after (run_sees_false (isSpelled_eq_false_of_starts hahead rfl rfl))]
  simp only [Bool.false_eq_true, if_false]
  rw [run_after (run_mark_of_comes hcomes), run_after hrun₁, run_after hsees, run_after hlast]
  simp only [Bool.and_self, if_true]
  rw [run_after hplain]
  simp only [Bool.false_eq_true, if_false]
  rw [run_after hrun₂, run_after hrun₃, run_after hrun₄, run_after hrun₅, hrun₆]

theorem Reads.assignment (hl : Reads l) (hr : Reads r) : Reads (assignment l r) := by
  have hl' := hl.binds_target hk
  have hno : l.is .assignmentExpression = false := hl'.is_eq_false (by decide)
  have hs : Starts startsOperand (Build.assignment l r) :=
    Starts.front hl.starts (chars_assignment l r) fun rest _ => follows_equals.ends l
  have hends (rest : List Char) (_ : Ends (Build.assignment l r) rest) :
      Ends l (' ' :: '=' :: ' ' :: r.chars ++ rest)
      ∧ Hangs (' ' :: '=' :: ' ' :: r.chars ++ rest)
      ∧ ((Build.assignment l r).is .assignmentExpression = false →
        Stuck (' ' :: '=' :: ' ' :: r.chars ++ rest)) := by
    have hahead : ahead (' ' :: '=' :: ' ' :: r.chars ++ rest) = ⟨.mark, "=", 1⟩ := ahead_equals
    refine ⟨follows_equals.ends l, ?_, nofun⟩
    rw [Hangs, hahead]
    rfl
  exact .of_expression rfl rfl hs (reads_assignment hk hl hr)
    (TriesTarget.front hl.target hno (chars_assignment l r) hends)
    (tries_default_assignment hl.starts hno hl.target hr.expression)

end Assignment

end Codemod.Build
