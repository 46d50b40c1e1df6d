/-
Reading accesses and calls back.

An operand of a member access or a call is read first, and the parser goes on
with the access behind it: so a chain of accesses is read from its first
operand on. What is no operand there by itself stands in parentheses, which
are read after the parser has tried them as the parameters of an arrow
function.
-/
import Codemod.Proofs.Build.Tries

namespace Codemod.Build

open Node Parse Parse.Step

variable {src : List Char} {s s' : Progress src} {fuel : Nat} {b rest : List Char}
  {shape : Shape} {t : String} {e o : Node} {es : List Node} {x : Text} {sym : Symbol}

-- =============================================================== operands

theorem is_eq_false {ss : List Symbol} (h : e.kind.isAny ss = true) (hsym : sym ∉ ss) :
    e.is sym = false := by
  rw [Node.is, Bool.eq_false_iff, ne_eq, beq_iff_eq]
  intro hkind
  simp only [Kind.isAny, List.any_eq_true, beq_iff_eq] at h
  obtain ⟨u, hu, heq⟩ := h
  rw [hkind] at heq
  obtain rfl := Kind.symbol.inj heq
  exact hsym hu

/-- What can stand anywhere is read back as an operand and as an expression if
it is read in front of accesses. -/
theorem Reads.of_chain (hk : e.kind.isAny primarySymbols = true)
    (hs : Starts Parse.startsChain e) (h : ReadsChain e) (ht : TriesTarget e) : Reads e where
  single := is_eq_false hk (by decide)
  starts := hs.mono startsOperand_of_startsChain
  startsChain _ := hs
  chain _ := h
  operand _ := ReadsChain.operand hs startsOperand_of_startsChain (by decide) h
  expression := ReadsOperand.expression (hs.mono startsOperand_of_startsChain)
    (ReadsChain.operand hs startsOperand_of_startsChain (by decide) h)
  target := ht
  default := TriesTarget.default hs (is_eq_false hk (by decide)) ht

/-- What opens with a bracket. -/
theorem starts_bracket {f : Shape → String → Bool} {o : String} {cs : List Char}
    (ho : o ∈ brackets) (hf : f .mark o = true) (he : e.chars = o.toList ++ cs) : Starts f e := by
  have hne : ∀ u ∈ brackets, u ≠ "" := by decide
  intro b rest hb _
  refine ⟨.mark, o, cs ++ rest, ?_, hne o ho, hf⟩
  rw [he, List.append_assoc]
  exact comes_bracket hb ho

/-- A single expression in front of a closing bracket. -/
theorem Reads.gives_expression (h : Reads e) (hb : Blank b) (hr : Closes rest)
    (hcomma : (ahead rest).isSpelled "," = false) (hfuel : 8 * e.chars.length ≤ fuel)
    (hrest : s.rest = b ++ (e.chars ++ rest)) :
    Gives (run (fuel + 1) (.expression false)) s (e.placed none (Text.ofChars b)) rest := by
  obtain ⟨shape, t, rest', hcomes, -⟩ := ahead_starts h.starts hb hr hrest
  obtain ⟨m, s', hm, hrun, hts, hs'⟩ := h.expression hb hr hfuel hrest
  exact ⟨m, s', hm, run_expression hcomes hrun (by rw [hs', hcomma]), hts, hs'⟩

theorem primary_parenthesized (h : Reads e) : ReadsPrimary (parenthesized e) := by
  intro src s fuel b rest hb hr hfuel hrest _
  rw [chars_parenthesized] at hrest hfuel
  simp only [List.length_cons, List.length_append, List.length_nil] at hfuel
  have ho : Comes s.rest b .mark "(" (e.chars ++ (")".toList ++ rest)) := by
    rw [hrest, List.cons_append, List.append_assoc]
    exact comes_paren hb
  have hrow : s.rest = b ++ '(' :: (rowChars [e] ++ ')' :: rest) := ho.eq
  have hattempt : (arrowParameters (run fuel)).run s = some (false, s) := by
    refine run_arrowParameters_false (fun d hd => ?_) hb ?_ hrow (of_mayFollow hr.next).2.2
    · rw [List.mem_singleton.1 hd]
      exact tries_parameterList h.starts h.default
    · simp only [rowChars]
      omega
  obtain ⟨fuel, rfl⟩ : ∃ n, fuel = n + 1 := ⟨fuel - 1, by omega⟩
  have hc : Comes ([] ++ (")".toList ++ rest)) [] .mark ")" rest :=
    comes_bracket blank_nil (by decide)
  obtain ⟨-, hcloses, hcomma⟩ := closing_bracket (c := ")") (by decide) rest
  have hless : 8 * e.chars.length ≤ fuel := by omega
  have hinner (s₁ : Progress src) (hs₁ : s₁.rest = e.chars ++ (")".toList ++ rest)) :
      GivesAll (run (fuel + 1) (.expression false)) s₁ [e.placed none []] (")".toList ++ rest) := by
    have hs₁' : s₁.rest = [] ++ (e.chars ++ (")".toList ++ rest)) := hs₁
    obtain ⟨m, s₂, hm, hrun, hts, hs₂⟩ := h.gives_expression blank_nil hcloses hcomma hless hs₁'
    exact ⟨[m], s₂, .cons hm .nil, hrun, hts, hs₂⟩
  obtain ⟨m, s', hm, hrun, hts, hs'⟩ := gives_bracketed .parenthesizedExpression ho (by decide)
    rfl hinner hc (by decide) rfl (by decide)
  refine ⟨m, s', hm, ?_, hts, hs'⟩
  unfold primary
  rw [run_after (run_mark_of_comes ho), run_after (run_peek s), ho.ahead_eq]
  dsimp only
  rw [if_pos (beq_self_eq_true "("), run_after hattempt]
  simp only [Bool.false_eq_true, if_false]
  unfold Parse.parenthesized
  rw [run_after (run_mark_of_comes ho)]
  exact hrun

theorem Reads.parenthesized (h : Reads e) : Reads (parenthesized e) := by
  have hchars : (Build.parenthesized e).chars = "(".toList ++ (e.chars ++ [')']) :=
    chars_parenthesized e
  have hs : Starts Parse.startsChain (Build.parenthesized e) :=
    starts_bracket (by decide) (by decide) hchars
  exact .of_chain rfl hs (ReadsPrimary.chain hs (primary_parenthesized h))
    (tries_of_startsNoTarget (starts_bracket (by decide) (by decide) hchars))

-- ================================================================ chains

/-- The places where an expression is the operand of an access or a call. -/
def accessPlaces : List (Symbol × Role) :=
  [(.memberExpression, .object), (.callExpression, .function), (.newExpression, .constructorOf)]

theorem operand_cases {r : Role} (h : (sym, r) ∈ accessPlaces) :
    operand e sym r = e ∧ e.kind.isAny primarySymbols = true
      ∨ operand e sym r = parenthesized e := by
  have hneeds : needsParentheses e.kind sym (some r) = !e.kind.isAny primarySymbols := by
    unfold needsParentheses
    simp only [accessPlaces, List.mem_cons, Prod.mk.injEq, List.not_mem_nil, or_false] at h
    rcases h with ⟨rfl, rfl⟩ | ⟨rfl, rfl⟩ | ⟨rfl, rfl⟩ <;> cases e.kind.isAny primarySymbols <;> rfl
  rw [operand, hneeds]
  cases hk : e.kind.isAny primarySymbols
  · exact .inr rfl
  · exact .inl ⟨rfl, rfl⟩

section Chains

variable {r : Role} (hp : (sym, r) ∈ accessPlaces) (h : Reads e)
include hp h

theorem Reads.access : Reads (Build.operand e sym r) := by
  rcases operand_cases hp with ⟨heq, -⟩ | heq
  · rwa [heq]
  · rw [heq]
    exact h.parenthesized

omit h in
theorem isAny_operand : (operand e sym r).kind.isAny primarySymbols = true := by
  rcases operand_cases hp with ⟨heq, hk⟩ | heq
  · rwa [heq]
  · rw [heq]
    rfl

omit h in
theorem is_operand (hnumber : e.is .number = false) : (operand e sym r).is .number = false := by
  rcases operand_cases hp with ⟨heq, -⟩ | heq
  · rwa [heq]
  · rw [heq]
    rfl

end Chains

theorem callless_placed (e : Node) (r : Option Role) (l : Text) :
    (e.placed r l).callless = e.callless := by
  obtain ⟨i, k, m, r', l', t, cs, z⟩ := e
  rw [Node.placed, callless, callless]

theorem callless_member : (member o x).callless = (operand o .memberExpression .object).callless := by
  rw [member, memberNode, branch, callless, if_neg (by decide), if_pos rfl, headCallless, inRole,
    callless_placed]

/-- The last tree is no arrow function. -/
theorem not_arrow {m : Node} {ts : List Node} {l : Text} (he : e.is .arrowFunction = false)
    (hm : Mirrors m (e.placed none l)) (hts : s.trees = m :: ts) :
    (lastIsAny [.arrowFunction] : Step src Bool).run s = some (false, s) := by
  have harrow : m.isAny [.arrowFunction] = false := by
    rw [hm.isAny_eq]
    have hno : (e.placed none l).is .arrowFunction = false := he
    simp [Node.isAny, hno]
  rw [run_lastIsAny, hts, List.head?_cons, Option.map_some, harrow]
  rfl

theorem ahead_dot (hx : x.ReadsAsWord) :
    ahead ('.' :: (x.chars ++ rest)) = ⟨.mark, ".", 1⟩ := by
  have hcomes : Comes ([] ++ ('.' :: (x.chars ++ rest))) [] .mark "." (x.chars ++ rest) :=
    comes_dot blank_nil hx
  exact hcomes.ahead_eq

/-- The parser goes on with the name behind a dot. -/
theorem exists_run_member {m : Node} {ts : List Node} {l : Text} (hx : x.ReadsAsWord)
    (hends : EndsName rest)
    (hk : o.kind.isAny primarySymbols = true) (hm : Mirrors m (o.placed none l))
    (hts : s.trees = m :: ts) (hs : s.rest = '.' :: (x.chars ++ rest)) (calls : Bool) :
    ∃ m' s', Mirrors m' ((branch .memberExpression [inRole o .object, Node.token ".",
        inRole (propertyIdentifier x) .property]).placed none l)
      ∧ s'.trees = m' :: ts ∧ s'.rest = rest
      ∧ (run (fuel + 1) (.accesses ts.length calls)).run s
        = (run fuel (.accesses ts.length calls)).run s' := by
  have hdot : Comes s.rest [] .mark "." (x.chars ++ rest) := by
    rw [hs]
    exact comes_dot blank_nil hx
  obtain ⟨n, s₁, hn, hrun₁, hts₁, hs₁⟩ := exists_role hm hts .object
  rw [← hs₁] at hdot
  obtain ⟨s₂, hrun₂, hts₂, hs₂⟩ := makes_token hdot rfl (by decide)
  have hname : Comes s₂.rest [] .word (String.ofList x.chars) rest := by
    rw [hs₂]
    exact comes_word blank_nil hx hends
  obtain ⟨s₃, hrun₃, hts₃, hs₃⟩ :=
    makes_leaf hname (ne_empty_of_readsAsWord hx) .propertyIdentifier (some .property)
  rw [ofString_chars hx] at hts₃
  have htrees : s₃.trees
      = [n, Node.token ".", inRole (propertyIdentifier x) .property].reverse ++ ts := by
    rw [hts₃, hts₂, hts₁]
    rfl
  obtain ⟨m', s₄, hm', hrun₄, hts₄, hs₄⟩ := exists_close .memberExpression (inRole o .object)
    htrees (by decide) rfl
    (.cons hn (.cons (mirrors_self rfl rfl) (.cons (mirrors_self rfl rfl) .nil)))
  refine ⟨m', s₄, hm', hts₄, by rw [hs₄, hs₃], ?_⟩
  show (accesses (run fuel) ts.length calls).run s = _
  unfold accesses
  rw [run_after (not_arrow (is_eq_false hk (by decide)) hm hts)]
  simp only [Bool.false_eq_true, if_false]
  rw [run_after (run_peek s), hs, ahead_dot hx, if_pos (by decide),
    run_after hrun₁, run_after hrun₂]
  have hmember : (memberName ts.length : Step src Unit).run s₂ = some ((), s₄) := by
    unfold memberName
    rw [run_after (run_peek s₂), hname.ahead_eq]
    dsimp only
    rw [run_after hrun₃, hrun₄]
  rw [run_after hmember]

/-- The parser goes on with the arguments behind an operand. -/
theorem exists_run_call {m : Node} {ts : List Node} {l : Text} (h : ∀ a ∈ es, Reads a)
    (hfuel : 8 * (rowChars es).length + 3 ≤ fuel)
    (hk : o.kind.isAny primarySymbols = true) (hm : Mirrors m (o.placed none l))
    (hts : s.trees = m :: ts) (hs : s.rest = '(' :: (rowChars es ++ ')' :: rest)) :
    ∃ m' s', Mirrors m' ((branch .callExpression [inRole o .function,
        inRole (arguments es) .arguments]).placed none l)
      ∧ s'.trees = m' :: ts ∧ s'.rest = rest
      ∧ (run (fuel + 1) (.accesses ts.length true)).run s
        = (run fuel (.accesses ts.length true)).run s' := by
  have hparen : ahead s.rest = ⟨.mark, "(", 1⟩ := by
    have hcomes : Comes s.rest [] .mark "(" (rowChars es ++ ')' :: rest) := by
      rw [hs]
      exact comes_paren blank_nil
    exact hcomes.ahead_eq
  obtain ⟨fuel, rfl⟩ : ∃ n, fuel = n + 1 := ⟨fuel - 1, by omega⟩
  obtain ⟨f, s₁, hf, hrun₁, hts₁, hs₁⟩ := exists_role hm hts .function
  have hargs : s₁.rest = [] ++ ((arguments es).chars ++ rest) := by
    rw [hs₁, hs, chars_arguments]
    simp
  have hless : 8 * (rowChars es).length + 2 ≤ fuel := by omega
  obtain ⟨as, s₂, has, hrun₂, hts₂, hs₂⟩ := gives_arguments h blank_nil hless hargs
  obtain ⟨a, s₃, ha, hrun₃, hts₃, hs₃⟩ := exists_role has hts₂ .arguments
  have htrees : s₃.trees = [f, a].reverse ++ ts := by
    rw [hts₃, hts₁]
    rfl
  obtain ⟨m', s₄, hm', hrun₄, hts₄, hs₄⟩ := exists_close .callExpression (inRole o .function)
    htrees (by decide) rfl (.cons hf (.cons ha .nil))
  refine ⟨m', s₄, hm', hts₄, by rw [hs₄, hs₃, hs₂], ?_⟩
  have hcall : (callArguments (run (fuel + 1)) ts.length).run s₁ = some ((), s₄) := by
    unfold callArguments
    rw [run_after hrun₂, run_after hrun₃, hrun₄]
  show (accesses (run (fuel + 1)) ts.length true).run s = _
  unfold accesses
  rw [run_after (not_arrow (is_eq_false hk (by decide)) hm hts)]
  simp only [Bool.false_eq_true, if_false]
  rw [run_after (run_peek s), hparen, if_neg (by decide), if_neg (by decide), if_neg (by decide),
    if_pos (by decide), run_after hrun₁, run_after hcall]

-- =============================================================== members

theorem Starts.front {f : Shape → String → Bool} {r : List Char} (h : Starts f o)
    (he : e.chars = o.chars ++ r) (hends : ∀ rest, Ends e rest → Ends o (r ++ rest)) :
    Starts f e := by
  intro b rest hb hr
  obtain ⟨shape, t, rest', hcomes, hne, hf⟩ := h hb (hends rest hr)
  refine ⟨shape, t, rest', ?_, hne, hf⟩
  rwa [he, List.append_assoc]

theorem Reads.member (hx : x.ReadsAsWord) (ho : Reads o) (hnumber : o.is .number = false) :
    Reads (member o x) := by
  have hp : (Symbol.memberExpression, Role.object) ∈ accessPlaces := by decide
  have ho' := Reads.access hp ho
  have hk := isAny_operand (e := o) hp
  have hends (e : Node) (rest : List Char) (_ : Ends e rest) :
      Ends (Build.operand o .memberExpression .object) ('.' :: x.chars ++ rest) :=
    ends_dot hx (is_operand hp hnumber)
  have hs : Starts Parse.startsChain (Build.member o x) :=
    Starts.front (ho'.startsChain hk) (chars_member o x) (hends _)
  refine .of_chain rfl hs ?_
    (TriesTarget.front ho'.target (is_eq_false hk (by decide)) (chars_member o x) ?_)
  · intro src s fuel calls b rest hcalls hb hr hfuel hrest _
    have hpos := length_pos_of_starts ho'.starts
    rw [chars_member, List.append_assoc] at hrest
    rw [chars_member, List.length_append, List.length_cons] at hfuel ⊢
    rw [callless_member] at hcalls
    have hasync : NoAsyncArrow fuel s (Build.operand o .memberExpression .object)
        ('.' :: x.chars ++ rest) := by
      intro _ hparen
      rw [List.cons_append, ahead_dot hx] at hparen
      cases hparen
    obtain ⟨m, s₁, fuel₁, hm, hts₁, hs₁, hle, hrun₁⟩ :=
      ho'.chain hk hcalls hb (hends _ rest hr) (by omega) hrest hasync
    obtain ⟨fuel₁, rfl⟩ : ∃ n, fuel₁ = n + 1 := ⟨fuel₁ - 1, by omega⟩
    obtain ⟨m', s', hm', hts', hs', hrun₂⟩ :=
      exists_run_member hx hr.apart.endsName hk hm hts₁ hs₁ calls
    exact ⟨m', s', fuel₁, hm', hts', hs', by omega, hrun₁.trans hrun₂⟩
  · intro rest hr
    have hstuck : Stuck ('.' :: x.chars ++ rest) := stuck_of_ahead (ahead_dot hx) rfl
    exact ⟨hends _ rest hr, hstuck.1, fun _ => hstuck⟩

-- ================================================================= calls

theorem ahead_paren : ahead ('(' :: rest) = ⟨.mark, "(", 1⟩ := by
  have hcomes : Comes ([] ++ ('(' :: rest)) [] .mark "(" rest := comes_paren blank_nil
  exact hcomes.ahead_eq

theorem noAsyncArrow_of_arguments {f : Node} (h : ∀ a ∈ es, Reads a) (hb : Blank b)
    (hfuel : 8 * (rowChars es).length + 5 ≤ fuel)
    (hrest : s.rest = b ++ (f.chars ++ '(' :: (rowChars es ++ ')' :: rest)))
    (hnext : (ahead rest).mayFollow = true) :
    NoAsyncArrow fuel s f ('(' :: (rowChars es ++ ')' :: rest)) := by
  intro hasync _ n hn
  rw [hasync] at hrest
  exact run_asyncArrow_false (fun a ha => tries_parameterList (h a ha).starts (h a ha).default)
    hb (by omega) hrest (of_mayFollow hnext).2.2

theorem Reads.call (ho : Reads o) (h : ∀ a ∈ es, Reads a) : Reads (call o es) := by
  have hp : (Symbol.callExpression, Role.function) ∈ accessPlaces := by decide
  have ho' := Reads.access hp ho
  have hk := isAny_operand (e := o) hp
  have hends (e : Node) (rest : List Char) (_ : Ends e rest) :
      Ends (Build.operand o .callExpression .function)
        ('(' :: (rowChars es ++ [')']) ++ rest) := ends_paren
  have hs : Starts Parse.startsChain (Build.call o es) :=
    Starts.front (ho'.startsChain hk) (chars_call o es) (hends _)
  refine .of_chain rfl hs ?_
    (TriesTarget.front ho'.target (is_eq_false hk (by decide)) (chars_call o es) ?_)
  · intro src s fuel calls b rest hcalls hb hr hfuel hrest _
    obtain rfl : calls = true := hcalls.resolve_right (by simp [Build.call, branch, callless])
    have hpos := length_pos_of_starts ho'.starts
    rw [chars_call, List.append_assoc, List.cons_append, List.append_assoc] at hrest
    rw [chars_call] at hfuel ⊢
    simp only [List.length_append, List.length_cons, List.length_nil] at hfuel ⊢
    have hargs : 8 * (rowChars es).length + 5 ≤ fuel := by omega
    have hasync := noAsyncArrow_of_arguments h hb hargs hrest hr.next
    obtain ⟨m, s₁, fuel₁, hm, hts₁, hs₁, hle, hrun₁⟩ :=
      ho'.chain hk (.inl rfl) hb ends_paren (by omega) hrest hasync
    obtain ⟨fuel₁, rfl⟩ : ∃ n, fuel₁ = n + 1 := ⟨fuel₁ - 1, by omega⟩
    have hless : 8 * (rowChars es).length + 3 ≤ fuel₁ := by omega
    obtain ⟨m', s', hm', hts', hs', hrun₂⟩ := exists_run_call h hless hk hm hts₁ hs₁
    exact ⟨m', s', fuel₁, hm', hts', hs', by omega, hrun₁.trans hrun₂⟩
  · intro rest hr
    have hstuck : Stuck ('(' :: (rowChars es ++ [')']) ++ rest) := stuck_of_ahead ahead_paren rfl
    exact ⟨ends_paren, hstuck.1, fun _ => hstuck⟩

end Codemod.Build
