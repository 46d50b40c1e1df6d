/-
Reading names and literals back.

A name is read as a name where no arrow makes it a parameter; a literal is
read by its first token.
-/
import Codemod.Proofs.Build.Reads

namespace Codemod.Build

open Node Parse Parse.Step

variable {src : List Char} {go : Goal → Step src Unit} {s s₁ : Progress src}
  {b rest : List Char} {shape : Shape} {t : String} {e : Node}

-- ============================================================== primaries

/-- Asked for an operand without its accesses, the parser reads the
expression. -/
def ReadsPrimary (e : Node) : Prop :=
  ∀ {src : List Char} {s : Progress src} {fuel : Nat} {b rest : List Char},
    Blank b → Ends e rest → 8 * e.chars.length ≤ fuel + 4 →
    s.rest = b ++ (e.chars ++ rest) → NoAsyncArrow (fuel + 1) s e rest →
    Gives (primary (run fuel)) s (e.placed none (Text.ofChars b)) rest

theorem run_access {fuel : Nat} (h : Comes s.rest b shape t rest)
    (hrun : (primary (run fuel)).run s = some ((), s₁)) (calls : Bool) :
    (run (fuel + 1) (.access calls) : Step src Unit).run s
      = (run fuel (.accesses s.trees.length calls)).run s₁ := by
  show (access (run fuel) calls : Step src Unit).run s = _
  unfold access
  rw [run_after (run_mark_of_comes h), run_after hrun]

theorem ReadsPrimary.chain {f : Shape → String → Bool} (hs : Starts f e)
    (h : ReadsPrimary e) : ReadsChain e := by
  intro src s fuel calls b rest _ hb hr hfuel hrest hasync
  have hpos := length_pos_of_starts hs
  obtain ⟨shape, t, rest', hcomes, -, -⟩ := hs hb hr
  rw [← hrest] at hcomes
  obtain ⟨fuel, rfl⟩ : ∃ n, fuel = n + 1 := ⟨fuel - 1, by omega⟩
  obtain ⟨m, s', hm, hrun, hts, hs'⟩ := h hb hr (by omega) hrest hasync
  exact ⟨m, s', fuel, hm, hts, hs', by omega, run_access hcomes hrun calls⟩

-- ================================================================== words

theorem run_peekSecond (h : Comes s.rest b shape t rest) :
    (peekSecond : Step src (Gap × Lexeme)).run s = some ((Gap.read rest, ahead rest), s) := by
  unfold peekSecond
  rw [run_after (run_gap s), h.gap_read]
  simp only [h.read, List.drop_left]
  rfl

theorem run_primary_word (h : Comes s.rest b .word t rest)
    (ht : t ∉ ["function", "class", "import", "new"]) :
    (primary go).run s = (nameOrArrow go).run s := by
  simp only [List.mem_cons, List.not_mem_nil, or_false, not_or] at ht
  unfold primary
  rw [run_after (run_mark_of_comes h), run_after (run_peek s), h.ahead_eq]
  simp [ht]

/-- What follows an operand makes no function of it. -/
theorem of_mayFollow {l : Lexeme} (h : l.mayFollow = true) :
    l.isSpelled "function" = false ∧ l.isName = false ∧ l.isSpelled "=>" = false := by
  simpa [Lexeme.mayFollow, and_assoc] using h

/-- A word that no arrow makes a parameter is a name or a literal. -/
theorem run_nameOrArrow (h : Comes s.rest b .word t rest)
    (hnext : (ahead rest).mayFollow = true)
    (hasync : t = "async" → (ahead rest).isSpelled "(" = true →
      (asyncArrow go).run s = some (false, s)) :
    (nameOrArrow go).run s
      = ((wordLiteral? t).elim (name none) fun sym => leaf sym none).run s := by
  obtain ⟨hfunction, hname, harrow⟩ := of_mayFollow hnext
  have hspelled : (ahead s.rest).isSpelled "async" = (t == "async") := isSpelled_ahead h _
  have hsees : (sees "async" : Step src Bool).run s = some (t == "async", s) := by
    rw [run_sees, hspelled]
  unfold nameOrArrow
  rw [run_after (run_mark_of_comes h), run_after (run_peekSecond h), run_after hsees]
  simp only [hfunction, Bool.and_false, Bool.false_eq_true, if_false]
  rw [run_after hsees]
  simp only [hname, Bool.and_false, Bool.false_eq_true, if_false]
  rw [run_after hsees]
  split
  · next hcall =>
      simp only [Bool.and_eq_true, beq_iff_eq] at hcall
      obtain ⟨⟨rfl, -⟩, hparen⟩ := hcall
      have hattempt := hasync rfl hparen
      unfold asyncArrow at hattempt
      rw [run_after hattempt]
      rfl
  · simp only [harrow, Bool.false_and, Bool.false_eq_true, if_false]
    rw [run_after (run_peek s), h.ahead_eq]
    simp only
    cases wordLiteral? t <;> rfl

-- ================================================================= atoms

/-- Names that are no words of the language. -/
structure IsName (x : Text) : Prop where
  word : x.ReadsAsWord
  free : String.ofList x.chars ∉ "undefined" :: reservedWords

theorem wordLiteral_eq_none (ht : t ∉ "undefined" :: reservedWords) :
    wordLiteral? t = none := by
  unfold wordLiteral?
  split
  all_goals first
    | rfl
    | exact absurd (by decide) ht

theorem ofString_chars {x : Text} (hx : x.ReadsAsWord) :
    Text.ofString (String.ofList x.chars) = x := by
  obtain ⟨cs, rfl, -⟩ := hx
  rw [Text.chars_ofChars, Text.ofString, String.toList_ofList]

/-- The next token becomes a leaf that is built as it is read. -/
theorem gives_leaf (h : Comes s.rest b shape t rest) (ht : t ≠ "") (sym : Symbol)
    (hsym : sym ≠ .objectAssignmentPattern) :
    Gives (leaf sym none) s ((Node.leaf sym t).placed none (Text.ofChars b)) rest := by
  obtain ⟨s', hrun, hts, hs'⟩ := makes_leaf h ht sym none
  refine ⟨_, s', mirrors_self ?_ rfl, hrun, hts, hs'⟩
  simpa [IsSettled, Node.placed, Node.leaf, Node.is] using hsym

theorem gives_of_run_eq {p q : Step src Unit} {n : Node} (h : p.run s = q.run s)
    (hq : Gives q s n rest) : Gives p s n rest := by
  obtain ⟨m, s', hm, hrun, hts, hs'⟩ := hq
  exact ⟨m, s', hm, h.trans hrun, hts, hs'⟩

theorem ne_empty_of_readsAsWord {x : Text} (hx : x.ReadsAsWord) :
    String.ofList x.chars ≠ "" := by
  obtain ⟨c, cs, hcs, -⟩ := ends_of_readsAsWord hx
  simp [hcs, ← String.toList_inj]

theorem startsLikeName_chars {x : Text} (hx : x.ReadsAsWord) :
    startsLikeName (String.ofList x.chars) = true := by
  obtain ⟨c, cs, rfl, hstart, -⟩ := ends_of_readsAsWord hx
  simpa [startsLikeName] using hstart

theorem starts_identifier {x : Text} (hx : IsName x) :
    Starts Parse.startsChain (identifier x) := by
  intro b rest hb hr
  have hcomes := comes_word hb hx.word hr.apart.endsName
  have hreserved : String.ofList x.chars ∉ reservedWords := fun h =>
    hx.free (List.mem_cons_of_mem _ h)
  refine ⟨.word, _, rest, by rwa [identifier, chars_leaf], ne_empty_of_readsAsWord hx.word, ?_⟩
  simp [Parse.startsChain, startsLikeName_chars hx.word, hreserved]

/-- A name is read as it is built. -/
theorem makes_name {x : Text} (hx : IsName x)
    (h : Comes s.rest b .word (String.ofList x.chars) rest) (r : Option Role) :
    Makes (name r) s () ((identifier x).placed r (Text.ofChars b) :: s.trees) rest := by
  have hreserved : String.ofList x.chars ∉ reservedWords := fun h =>
    hx.free (List.mem_cons_of_mem _ h)
  have hname : (ahead s.rest).isName = true := by
    simp [h.ahead_eq, Lexeme.isName, hreserved]
  have hleaf := makes_leaf h (ne_empty_of_readsAsWord hx.word) .identifier r
  rw [ofString_chars hx.word] at hleaf
  unfold name
  exact makes_of_reads (run_peek s) (makes_of_reads (run_require hname s) hleaf)

theorem primary_identifier {x : Text} (hx : IsName x) : ReadsPrimary (identifier x) := by
  intro src s fuel b rest hb hr _ hrest hasync
  rw [identifier, chars_leaf] at hrest
  have hcomes := comes_word hb hx.word hr.apart.endsName
  rw [← hrest] at hcomes
  have hkeywords : ∀ u ∈ ["function", "class", "import", "new"],
      u ∈ "undefined" :: reservedWords := by decide
  obtain ⟨s', hname, hts, hs'⟩ := makes_name hx hcomes none
  refine ⟨_, s', mirrors_self rfl rfl, ?_, hts, hs'⟩
  rw [run_primary_word hcomes (fun h => hx.free (hkeywords _ h)),
    run_nameOrArrow hcomes hr.next ?_, wordLiteral_eq_none hx.free]
  · exact hname
  · intro hasync' hparen
    refine hasync ?_ hparen fuel rfl
    rw [identifier, chars_leaf, ← hasync', String.toList_ofList]

-- =============================================================== literals

/-- A literal of one token starts with the token. -/
def startsLiteral (shape : Shape) (t : String) : Bool :=
  Parse.startsChain shape t
    && (shape == .number || shape == .quote || ["true", "false"].contains t)

theorem startsChain_of_startsLiteral (shape : Shape) (t : String)
    (h : startsLiteral shape t = true) : Parse.startsChain shape t = true := by
  rw [startsLiteral, Bool.and_eq_true] at h
  exact h.1

theorem comes_boolean (w : Bool) (hb : Blank b) (hr : EndsName rest) :
    Comes (b ++ ((boolean w).chars ++ rest)) b .word (if w then "true" else "false") rest := by
  have hcomes := comes_plainWord (w := if w then "true" else "false") hb
    (by cases w <;> decide) hr
  have hchars : (boolean w).chars = (if w then "true" else "false").toList := by
    cases w <;> rfl
  rwa [hchars]

theorem starts_boolean (w : Bool) : Starts startsLiteral (boolean w) := by
  intro b rest hb hr
  refine ⟨.word, _, rest, comes_boolean w hb hr.apart.endsName, ?_, ?_⟩
  · cases w <;> decide
  · cases w <;> decide

theorem primary_boolean (w : Bool) : ReadsPrimary (boolean w) := by
  intro src s fuel b rest hb hr _ hrest _
  have hcomes := comes_boolean w hb hr.apart.endsName
  rw [← hrest] at hcomes
  have hleaf : Gives (leaf (if w then .trueLit else .falseLit) none) s
      ((boolean w).placed none (Text.ofChars b)) rest := by
    cases w
    · exact gives_leaf hcomes (by decide) .falseLit (by decide)
    · exact gives_leaf hcomes (by decide) .trueLit (by decide)
  refine gives_of_run_eq ?_ hleaf
  rw [run_primary_word hcomes (by cases w <;> decide),
    run_nameOrArrow hcomes hr.next (by cases w <;> exact nofun)]
  cases w <;> rfl

section Numbers

variable {cs : List Char} (hne : cs ≠ []) (hcs : ∀ c ∈ cs, c.isDigit = true)
include hne hcs

theorem starts_number : Starts startsLiteral (number (Text.ofChars cs)) := by
  intro b rest hb hr
  have hcomes := comes_number hb hne hcs hr.apart (hr.dot rfl)
  refine ⟨.number, String.ofList cs, rest, ?_, ?_, ?_⟩
  · rwa [number, chars_leaf, Text.chars_ofChars]
  · simpa [← String.toList_inj] using hne
  · cases cs with
    | nil => exact absurd rfl hne
    | cons c cs => simp [startsLiteral, Parse.startsChain, hcs c List.mem_cons_self]

theorem primary_number : ReadsPrimary (number (Text.ofChars cs)) := by
  intro src s fuel b rest hb hr _ hrest _
  have hcomes := comes_number hb hne hcs hr.apart (hr.dot rfl)
  rw [number, chars_leaf, Text.chars_ofChars] at hrest
  rw [← hrest] at hcomes
  have hleaf := gives_leaf hcomes (by simpa [← String.toList_inj] using hne) .number (by decide)
  rw [Text.ofString, String.toList_ofList] at hleaf
  refine gives_of_run_eq ?_ hleaf
  unfold primary
  rw [run_after (run_mark_of_comes hcomes), run_after (run_peek s), hcomes.ahead_eq]

end Numbers

section Strings

variable {quote : Char} {cs : List Char} {c : Char}

theorem body_escape_pair (hc : c ∈ ['"', '\'', '\\', 'n', 'r', 't', 'f', 'b']) :
    Body quote ['\\', c] := by
  refine .escape (fun rest => ?_) (e := [c]) .nil
  simp only [List.mem_cons, List.not_mem_nil, or_false] at hc
  rcases hc with rfl | rfl | rfl | rfl | rfl | rfl | rfl | rfl <;> cases rest <;> rfl

theorem body_escape_unit {ds : List Char} (hds : ds.all isHexDigit = true)
    (hlen : ds.length = 4) : Body quote ('\\' :: 'u' :: ds) := by
  obtain ⟨x, y, z, w, rfl⟩ := List.length_eq_four.1 hlen
  refine .escape (fun rest => ?_) (e := 'u' :: [x, y, z, w]) .nil
  have hx : x ≠ '\x7b' := by
    rintro rfl
    cases hds
  show nameEscapeLength ('\\' :: 'u' :: x :: y :: z :: w :: rest) = 6
  unfold nameEscapeLength
  split
  · next heq =>
      simp only [List.cons.injEq, true_and] at heq
      exact absurd heq.1 hx
  · next heq =>
      simp only [List.cons.injEq, true_and] at heq
      obtain ⟨rfl, rfl, rfl, rfl, rfl⟩ := heq
      rw [if_pos hds]
  · next hno => exact absurd rfl (hno x y z w rest)

theorem isHexDigit_hexText (n : Fin 32) :
    (Text.hexText 4 n).all isHexDigit = true ∧ (Text.hexText 4 n).length = 4 := by
  decide +revert

/-- The text written for a character is read as one part of a literal. -/
theorem exists_body_escapePoint (hc : c = '"' ∨ c ≠ quote) :
    ∃ ds, Text.escapePoint (.scalar c) = Text.ofChars ds ∧ Body quote ds := by
  unfold Text.escapePoint
  dsimp only
  split
  · exact ⟨_, rfl, body_escape_pair (by decide)⟩
  · exact ⟨_, rfl, body_escape_pair (by decide)⟩
  · exact ⟨_, rfl, body_escape_pair (by decide)⟩
  · exact ⟨_, rfl, body_escape_pair (by decide)⟩
  · exact ⟨_, rfl, body_escape_pair (by decide)⟩
  · exact ⟨_, rfl, body_escape_pair (by decide)⟩
  · exact ⟨_, rfl, body_escape_pair (by decide)⟩
  · next hquote hslash hfeed hreturn _ _ _ =>
      split
      · next hcontrol =>
          obtain ⟨hdigits, hlen⟩ := isHexDigit_hexText ⟨c.toNat, hcontrol⟩
          exact ⟨_, (Text.ofChars_append ['\\', 'u'] _).symm, body_escape_unit hdigits hlen⟩
      · refine ⟨[c], rfl, .plain ?_ .nil⟩
        have hne : c ≠ quote := hc.resolve_left hquote
        simpa [isPlain, hne] using ⟨⟨hslash, hreturn⟩, hfeed⟩

theorem exists_body_writePoint (hquote : quote = '"' ∨ quote = '\'') (c : Char) :
    ∃ ds, writePoint quote (.scalar c) = Text.ofChars ds ∧ Body quote ds := by
  rcases hquote with rfl | rfl
  · exact exists_body_escapePoint (by tauto)
  · show ∃ ds, singlePoint (.scalar c) = _ ∧ _
    unfold singlePoint
    split
    · next hc =>
        obtain rfl : c = '"' := by simpa [Point.is] using hc
        exact ⟨['"'], rfl, .plain (by decide) .nil⟩
    · split
      · exact ⟨_, rfl, body_escape_pair (by decide)⟩
      · next hc => exact exists_body_escapePoint (.inr (by simpa [Point.is] using hc))

theorem exists_body_flatMap (hquote : quote = '"' ∨ quote = '\'') (cs : List Char) :
    ∃ ds, (Text.ofChars cs).flatMap (writePoint quote) = Text.ofChars ds ∧ Body quote ds := by
  induction cs with
  | nil => exact ⟨[], rfl, .nil⟩
  | cons c cs ih =>
      obtain ⟨ds, hds, hbody⟩ := ih
      obtain ⟨es, hes, hbody'⟩ := exists_body_writePoint hquote c
      refine ⟨es ++ ds, ?_, hbody'.append hbody⟩
      have hcons : Text.ofChars (c :: cs) = .scalar c :: Text.ofChars cs := rfl
      rw [hcons, List.flatMap_cons, hes, hds, Text.ofChars_append]

variable (hquote : quote = '"' ∨ quote = '\'') (cs : List Char)
include hquote

/-- A string that is built is a body between its quotes. -/
theorem exists_body_quoted : ∃ ds, Body quote ds
    ∧ (quoted (Text.ofChars cs) (String.singleton quote)).code
      = Text.ofChars (quote :: (ds ++ [quote])) := by
  obtain ⟨ds, hds, hbody⟩ := exists_body_flatMap hquote cs
  refine ⟨ds, hbody, ?_⟩
  rw [(quoted_shape hquote _).1, hds]
  simp [Text.ofChars]

theorem starts_quoted :
    Starts startsLiteral (quoted (Text.ofChars cs) (String.singleton quote)) := by
  intro b rest hb _
  obtain ⟨ds, -, hcode⟩ := exists_body_quoted hquote cs
  refine ⟨.quote, String.ofList [quote], ds ++ [quote] ++ rest, ?_, ?_, ?_⟩
  · rw [Node.chars, hcode, Text.chars_ofChars]
    exact comes_quote hb hquote
  · simp [← String.toList_inj]
  · rcases hquote with rfl | rfl <;> decide

theorem primary_quoted : ReadsPrimary (quoted (Text.ofChars cs) (String.singleton quote)) := by
  intro src s fuel b rest hb hr _ hrest _
  obtain ⟨ds, hbody, hcode⟩ := exists_body_quoted hquote cs
  rw [Node.chars, hcode, Text.chars_ofChars] at hrest
  have hcomes : Comes s.rest b .quote (String.ofList [quote]) (ds ++ [quote] ++ rest) := by
    rw [hrest]
    exact comes_quote hb hquote
  obtain ⟨m, hm, s', hrun, hts, hs'⟩ := makes_string hb hquote hbody rfl rfl hcode hrest
  refine ⟨m, s', hm, ?_, hts, hs'⟩
  unfold primary
  rw [run_after (run_mark_of_comes hcomes), run_after (run_peek s), hcomes.ahead_eq]
  exact hrun

end Strings

end Codemod.Build
