/-
What is read back of built expressions.

An expression assembled from names and literals is printed as a text that is
read as the expression again (`parse_parenthesized`), but for four operands.
Two signs in a row become one token, and so do a number and the dot of an
access to it (`signs_and_dots_merge`). A call in what `new` makes takes the
arguments of `new`, and braces at the front of an arrow function's body are
its block (`callees_and_braces_are_captured`).
-/
import Codemod.Parse.Source
import Codemod.Proofs.Build.Arrows

namespace Codemod.Build

open Node Parse Parse.Step

-- ============================================================= expressions

/-- An element of an array, spread on demand. -/
def element (d : Node × Bool) : Node := if d.2 then spread d.1 else d.1

/-- The expressions that builders assemble from names and literals, and whose
operands stay apart when they are printed. -/
inductive Assembled : Node → Prop
  | identifier {x : Text} (hx : IsName x) : Assembled (identifier x)
  | string {quote : Char} (hquote : quote = '"' ∨ quote = '\'') (value : List Char) :
      Assembled (quoted (Text.ofChars value) (String.singleton quote))
  | number (n : Nat) : Assembled (number (Text.ofString (toString n)))
  | boolean (w : Bool) : Assembled (boolean w)
  | member {o : Node} {x : Text} (ho : Assembled o) (hx : x.ReadsAsWord)
      (hnumber : o.is .number = false) : Assembled (member o x)
  | call {o : Node} {es : List Node} (ho : Assembled o) (hes : ∀ a ∈ es, Assembled a) :
      Assembled (call o es)
  | newExpression {o : Node} {es : List Node} (ho : Assembled o)
      (hcallless : o.callless = true) (hes : ∀ a ∈ es, Assembled a) :
      Assembled (newExpression o es)
  | binary {l r : Node} {op : String} (hop : (precedence? op).isSome = true)
      (hl : Assembled l) (hr : Assembled r) : Assembled (binary l op r)
  | unary {a : Node} {op : String} (hop : op ∈ unaryOperators) (ha : Assembled a)
      (hsign : Unmerged op a) : Assembled (unary op a)
  | assignment {l r : Node} (hk : l.is .identifier = true ∨ l.is .memberExpression = true)
      (hl : Assembled l) (hr : Assembled r) : Assembled (assignment l r)
  | array {ds : List (Node × Bool)} (hds : ∀ d ∈ ds, Assembled d.1) :
      Assembled (array (ds.map element))
  | object {ps : List (Text × Node)} (hx : ∀ p ∈ ps, p.1.ReadsAsWord)
      (hps : ∀ p ∈ ps, Assembled p.2) : Assembled (object ps)
  | arrow {xs : List Text} {e : Node} (hxs : ∀ x ∈ xs, IsName x) (he : Assembled e)
      (hopen : Unblocked e) : Assembled (arrow (xs.map Build.identifier) e)

variable {e : Node}

theorem Reads.of_primary (hk : e.kind.isAny primarySymbols = true)
    (hs : Starts Parse.startsChain e) (h : ReadsPrimary e) (ht : TriesTarget e) : Reads e :=
  .of_chain hk hs (ReadsPrimary.chain hs h) ht

theorem Reads.identifier {x : Text} (hx : IsName x) : Reads (identifier x) :=
  .of_primary rfl (starts_identifier hx) (primary_identifier hx) (tries_identifier hx)

theorem startsNoTarget_of_startsLiteral (shape : Shape) (t : String)
    (h : startsLiteral shape t = true) : startsNoTarget shape t = true := by
  simp only [startsLiteral, Bool.and_eq_true, Bool.or_eq_true, beq_iff_eq,
    List.contains_iff_mem, List.mem_cons, List.not_mem_nil, or_false] at h
  rcases h.2 with (rfl | rfl) | (rfl | rfl)
  · rfl
  · rfl
  · cases shape <;> decide
  · cases shape <;> decide

theorem Reads.of_literal (hk : e.kind.isAny primarySymbols = true)
    (hs : Starts startsLiteral e) (h : ReadsPrimary e) : Reads e :=
  .of_primary hk (hs.mono startsChain_of_startsLiteral) h
    (tries_of_startsNoTarget (hs.mono startsNoTarget_of_startsLiteral))

theorem reads_element {d : Node × Bool} (h : Reads d.1) : ReadsItem (.elements true) (element d)
    ∧ TriesItem .patternElements (element d) := by
  unfold element
  split
  · exact ⟨h.item_spread true, tries_spread h.single h.target⟩
  · exact ⟨h.item_elements true, tries_patternElements h.starts h.default⟩

/-- Each expression that is assembled is read back. -/
theorem Assembled.reads (h : Assembled e) : Reads e := by
  induction h with
  | identifier hx => exact .identifier hx
  | string hquote value =>
      exact .of_literal rfl (starts_quoted hquote value) (primary_quoted hquote value)
  | number n =>
      have hdigits : (toString n).toList = Nat.toDigits 10 n := Nat.toList_repr
      have hne : (toString n).toList ≠ [] := by
        rw [hdigits]
        exact Nat.toDigits_ne_nil
      have hall : ∀ c ∈ (toString n).toList, c.isDigit = true := by
        rw [hdigits]
        exact fun c hc => Nat.isDigit_of_mem_toDigits (by decide) (by decide) hc
      exact .of_literal rfl (starts_number hne hall) (primary_number hne hall)
  | boolean w => exact .of_literal (by cases w <;> rfl) (starts_boolean w) (primary_boolean w)
  | member _ hx hnumber ho => exact .member hx ho hnumber
  | call _ _ ho hes => exact .call ho hes
  | newExpression _ hcallless _ ho hes => exact .newExpression ho hcallless hes
  | binary hop _ _ hl hr => exact .binary hop hl hr
  | unary hop _ hsign ha => exact .unary hop ha hsign
  | assignment hk _ _ hl hr => exact .assignment hk hl hr
  | array _ hds =>
      refine .array ?_ ?_ <;> intro d hd <;> obtain ⟨d, hmem, rfl⟩ := List.mem_map.1 hd
      · exact (reads_element (hds d hmem)).1
      · exact (reads_element (hds d hmem)).2
  | object hx _ hps => exact .object hx hps
  | arrow hxs _ hopen he => exact .arrow hxs he hopen

-- ================================================================ programs

section Programs

variable {src : List Char} {s : Progress src} {fuel : Nat} {rest : List Char}

/-- A statement that starts with a parenthesis is an expression. -/
theorem run_statement_paren (h : Comes s.rest [] .mark "(" rest) :
    (run (fuel + 1) .statement : Step src Unit).run s = (Parse.expressionStatement (run fuel)).run s := by
  have hspelled (u : String) : (ahead s.rest).isSpelled u = ("(" == u) := isSpelled_ahead h u
  have hdeclaration : (seesDeclaration : Step src Bool).run s = some (false, s) := by
    unfold seesDeclaration
    rw [run_after (run_peekSecond h), run_after (run_seesAny_false (by simp [hspelled])),
      run_after (run_sees_false (hspelled _))]
    rfl
  have hfunction : (seesFunction : Step src Bool).run s = some (false, s) := by
    unfold seesFunction
    rw [run_after (run_peekSecond h), run_after (run_sees_false (hspelled _)),
      run_after (run_sees_false (hspelled _))]
    rfl
  show (statement (run fuel)).run s = _
  unfold statement
  rw [run_after (run_mark_of_comes h), run_after (run_peek s), run_after (run_peekSecond h),
    h.ahead_eq]
  dsimp only
  rw [if_neg (by decide), if_neg (by decide), run_after hdeclaration]
  simp only [Bool.false_eq_true, if_false]
  rw [run_after hfunction]
  rfl

/-- An expression in parentheses is a statement of its own. -/
theorem gives_statement (h : Reads e) (hfuel : 8 * (parenthesized e).chars.length + 2 ≤ fuel)
    (hrest : s.rest = (parenthesized e).chars) :
    Gives (run fuel .statement) s (branch .expressionStatement [parenthesized e]) [] := by
  obtain ⟨fuel, rfl⟩ : ∃ n, fuel = n + 2 := ⟨fuel - 2, by omega⟩
  have ho : Comes s.rest [] .mark "(" (e.chars ++ [')']) := by
    rw [hrest, chars_parenthesized]
    exact comes_paren blank_nil
  have hrest' : s.rest = [] ++ ((parenthesized e).chars ++ []) := by
    rw [hrest, List.append_nil]
    rfl
  have hless : 8 * (parenthesized e).chars.length ≤ fuel := by omega
  obtain ⟨m, s₁, hm, hrun₁, hts₁, hs₁⟩ :=
    h.parenthesized.gives_expression blank_nil closes_nil rfl hless hrest'
  have hsemicolon : (semicolon : Step src Unit).run s₁ = some ((), s₁) := by
    have hnone : (ahead s₁.rest).isSpelled ";" = false := by
      rw [hs₁]
      rfl
    have hends : (endsHere : Step src Bool).run s₁ = some (true, s₁) := by
      unfold endsHere
      rw [run_after (run_gap s₁), hs₁]
      rfl
    unfold semicolon
    rw [run_after (run_tokenIf hnone)]
    simp only [Bool.not_false, if_true]
    rw [run_after hends]
    rfl
  have htrees : s₁.trees = [m].reverse ++ s.trees := hts₁
  obtain ⟨m', s₂, hm', hrun₂, hts₂, hs₂⟩ := exists_close .expressionStatement
    (parenthesized e) htrees (by decide) rfl (.cons hm .nil)
  refine ⟨m', s₂, hm', ?_, hts₂, by rw [hs₂, hs₁]⟩
  rw [run_statement_paren ho]
  unfold Parse.expressionStatement
  rw [run_after (run_mark_of_comes ho), run_after hrun₁, run_after hsemicolon, hrun₂]

theorem exists_run_program (h : Reads e) (hsrc : src = (parenthesized e).chars) :
    ∃ m s', Mirrors m (branch .expressionStatement [parenthesized e])
      ∧ (program src).run (Progress.start src) = some ((), s') ∧ s'.trees = [m]
      ∧ s'.rest = [] := by
  have hlength : src.length = (parenthesized e).chars.length := by rw [hsrc]
  have hfuel : fuelFor src = 16 * (src.length + 2) := rfl
  obtain ⟨fuel, hfuel'⟩ : ∃ n, fuelFor src = n + 2 := ⟨fuelFor src - 2, by omega⟩
  have hless : 8 * (parenthesized e).chars.length + 2 ≤ fuel + 1 := by omega
  obtain ⟨m, s', hm, hrun, hts, hs'⟩ :=
    gives_statement (s := Progress.start src) h hless hsrc
  have ho : Comes (Progress.start src).rest [] .mark "(" (e.chars ++ [')']) := by
    show Comes src [] .mark "(" (e.chars ++ [')'])
    rw [hsrc, chars_parenthesized]
    exact comes_paren blank_nil
  have hmore : (run (fuel + 1) .statements : Step src Unit).run s' = some ((), s') := by
    show (statements (run fuel)).run s' = _
    unfold statements
    rw [run_after (run_peek s'), hs']
    rfl
  have hstatements : (run (fuelFor src) .statements : Step src Unit).run (Progress.start src)
      = some ((), s') := by
    rw [hfuel']
    show (statements (run (fuel + 1))).run _ = _
    unfold statements
    rw [run_after (run_peek _), ho.ahead_eq, if_neg (by decide), run_after hrun, hmore]
  have hflush : s'.flush = s' := by
    unfold Progress.flush
    rw [hs']
    rfl
  have hbang : hashBangLength src = 0 := by
    rw [hsrc, chars_parenthesized]
    rfl
  refine ⟨m, s', hm, ?_, hts, hs'⟩
  unfold program
  simp only [hbang, Nat.lt_irrefl, if_false]
  rw [run_after hstatements, run_after (run_peek s'), hs']
  show some ((), s'.flush) = _
  rw [hflush]

end Programs

/-- Nothing that only a pattern may hold is left in a tree that is settled. -/
theorem isUnfinishedPattern_eq_false {m n : Node} (h : m.Every IsSettled) (hn : n ∈ m.walk) :
    isUnfinishedPattern n = false := by
  have hchildren : n.children.any (·.is .objectAssignmentPattern) = false := by
    refine List.any_eq_false.2 fun c hc => ?_
    have hsettled := (every_iff.1 ((every_iff.1 (h.of_mem_walk hn)).2 c hc)).1
    rw [hsettled]
    decide
  rw [isUnfinishedPattern, hchildren, Bool.and_false]

/-- The text of an assembled expression in parentheses is read as a program
that consists of the expression as it was built. -/
theorem parse_parenthesized (h : Assembled e) : ∃ m, parse (parenthesized e).code = .ok m
    ∧ m.sealed = (branch .program [branch .expressionStatement [parenthesized e]]).sealed := by
  obtain ⟨m, s, hm, hrun, hts, hs⟩ := exists_run_program h.reads rfl
  have hclose : s.close = gather .program [m] := by
    unfold Progress.close
    rw [hts, hs]
    rfl
  have hmirrors : Mirrors (gather .program [m])
      (branch .program [branch .expressionStatement [parenthesized e]]) :=
    mirrors_gather (l := []) (by decide) rfl (.cons hm .nil)
  have hany : (gather .program [m]).walk.any isUnfinishedPattern = false := by
    refine List.any_eq_false.2 fun n hn => ?_
    rw [isUnfinishedPattern_eq_false hmirrors.settled hn]
    decide
  have htree : tree? (parenthesized e).chars = some (gather .program [m]) := by
    unfold tree?
    rw [hrun]
    simp only [hclose, hany, Bool.false_eq_true, if_false]
  -- A parse prints what it is read from, so the characters are the whole text.
  have hcode : (parenthesized e).code = Text.ofChars (parenthesized e).chars := by
    have hrender := render_tree? htree
    rw [render, hmirrors.lead_eq, ← code_sealed, hmirrors.same, code_sealed] at hrender
    have hlead : (parenthesized e).lead = [] := rfl
    simpa [code_branch, render, hlead] using hrender
  refine ⟨((gather .program [m]).renumber 0).1, ?_, ?_⟩
  · rw [hcode, parse, Text.toChars?_ofChars]
    simp only [htree]
  · rw [sealed_renumber, hmirrors.same]

/-- Of nested builders the text of a call with an arrow function is made, and
read back. -/
theorem parse_map_to_powers : ∃ e, Assembled e
    ∧ (parenthesized e).code = "(xs.map((x) => (-x) ** 2))"
    ∧ ∃ m, parse "(xs.map((x) => (-x) ** 2))" = .ok m
      ∧ m.sealed = (branch .program [branch .expressionStatement [parenthesized e]]).sealed := by
  have hxs : IsName "xs" := ⟨(isWord_ofString (by decide)).readsAsWord, by decide⟩
  have hx : IsName "x" := ⟨(isWord_ofString (by decide)).readsAsWord, by decide⟩
  have hmap : Text.ReadsAsWord "map" := (isWord_ofString (by decide)).readsAsWord
  have hnegated : Assembled (unary "-" (identifier "x")) :=
    .unary (by decide) (.identifier hx) (fun _ => by decide)
  have hpower : Assembled (binary (unary "-" (identifier "x")) "**" (number "2")) :=
    .binary rfl hnegated (.number 2)
  have hopen : Unblocked (binary (unary "-" (identifier "x")) "**" (number "2")) := by
    unfold Unblocked
    decide
  have harrow : Assembled (arrow [identifier "x"]
      (binary (unary "-" (identifier "x")) "**" (number "2"))) :=
    .arrow (List.forall_mem_singleton.2 hx) hpower hopen
  have h := Assembled.call (.member (.identifier hxs) hmap rfl) (List.forall_mem_singleton.2 harrow)
  have hcode : (parenthesized (call (member (identifier "xs") "map") [arrow [identifier "x"]
      (binary (unary "-" (identifier "x")) "**" (number "2"))])).code
      = "(xs.map((x) => (-x) ** 2))" := by decide
  exact ⟨_, h, hcode, hcode ▸ parse_parenthesized h⟩

/-- Two minus signs merge into a decrement, and the dot behind a number is
read as part of the number: of `-(-y)` the text `(--y)` is made, which is
read as an update, and of the member `x` of `1` the text `(1.x)`, which is
not read at all. -/
theorem signs_and_dots_merge :
    (parenthesized (unary "-" (unary "-" (identifier "y")))).code = "(--y)"
      ∧ ((parse "(--y)").toOption.map fun m =>
          (m.walk.any (·.is .unaryExpression), m.walk.any (·.is .updateExpression)))
        = some (false, true)
      ∧ (parenthesized (member (number "1") "x")).code = "(1.x)"
      ∧ (parse "(1.x)").isOk = false := by
  decide +kernel

/-- The call in what `new` makes takes the arguments of `new`, and the braces
of an object literal at the front of an arrow function's body are read as a
block. -/
theorem callees_and_braces_are_captured :
    (parenthesized (newExpression (call (identifier "f") []) [number "1"])).code = "(new f()(1))"
      ∧ ((parse "(new f()(1))").toOption.map fun m => m.walk.any fun n =>
          n.is .parenthesizedExpression && n.children.any (·.is .callExpression)) = some true
      ∧ (parenthesized (arrow [] (binary (object []) "+" (number "1")))).code
        = "(() => \x7b\x7d + 1)"
      ∧ (parse "(() => \x7b\x7d + 1)").isOk = false := by
  decide +kernel

end Codemod.Build
