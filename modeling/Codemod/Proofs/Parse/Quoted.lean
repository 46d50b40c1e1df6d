/-
Reading a string literal that has been written.

The body of a literal is a row of plain characters and escapes, none of which
goes on in what follows it (`Body`). The parser cuts it into fragments and
escapes and stops at the closing quote (`makes_stringParts`).
-/
import Codemod.Proofs.Parse.Mirror
import Codemod.Proofs.Parse.Spelling

namespace Codemod.Parse

open Step

variable {src : List Char} {q : Char} {b cs rest : List Char} {s : Progress src}

-- ================================================================ bodies

/-- The character stands for itself between the quotes. -/
def isPlain (q c : Char) : Bool := c != q && c != '\\' && c != '\r' && c != '\n'

/-- What may stand between two of the quotes. -/
inductive Body (q : Char) : List Char → Prop
  | nil : Body q []
  | plain {c : Char} {cs : List Char} : isPlain q c = true → Body q cs → Body q (c :: cs)
  | escape {e cs : List Char} :
      (∀ rest, escapeLength ('\\' :: (e ++ rest)) = e.length + 1) → Body q cs →
        Body q ('\\' :: (e ++ cs))

theorem Body.append {ds : List Char} (h : Body q cs) (hds : Body q ds) : Body q (cs ++ ds) := by
  induction h with
  | nil => exact hds
  | plain hc _ ih => exact .plain hc ih
  | escape he _ ih =>
      rw [List.cons_append, List.append_assoc]
      exact .escape he ih

/-- Behind its plain start a body is a body. -/
theorem Body.dropWhile (h : Body q cs) : Body q (cs.dropWhile (isPlain q)) := by
  induction h with
  | nil => exact .nil
  | plain hc _ ih => rwa [List.dropWhile_cons_of_pos hc]
  | escape he hcs _ =>
      rw [List.dropWhile_cons_of_neg (by simp [isPlain])]
      exact .escape he hcs

-- =============================================================== reading

/-- Characters that follow become a leaf. -/
theorem makes_adjoining (h : s.rest = cs ++ rest) (hne : cs ≠ []) (kind : Kind) (named : Bool)
    (role : Option Role) : Makes (adjoining kind named role cs.length) s ()
      (⟨none, kind, named, role, [], some (Text.ofChars cs), [], []⟩ :: s.trees) rest := by
  have hpos : 0 < cs.length := List.length_pos_of_ne_nil hne
  refine makes_of_reads (run_require (decide_eq_true hpos) s) ⟨_, rfl, ?_, ?_⟩
  · simp only [Progress.push, List.drop_zero, h, List.take_left]
    rfl
  · simp only [Progress.push, List.drop_zero, h, List.drop_left]

/-- The step reads up to `rest` and leaves nothing but leaves. -/
def Splits (p : Step src Unit) (s : Progress src) (rest : List Char) : Prop :=
  ∃ ts, (∀ t ∈ ts, t.children = [] ∧ t.IsSettled) ∧ Makes p s () (ts ++ s.trees) rest

section Parts

theorem splits_adjoining (kind : Kind) (named : Bool) (role : Option Role) (hs : s.rest = cs ++ rest) (hne : cs ≠ [])
    (hkind : kind ≠ Symbol.objectAssignmentPattern) :
    Splits (adjoining kind named role cs.length) s rest :=
  ⟨[⟨none, kind, named, role, [], some (Text.ofChars cs), [], []⟩],
    List.forall_mem_singleton.2 ⟨rfl, beq_false_of_ne hkind⟩, makes_adjoining hs hne ..⟩

theorem Splits.bind {p q : Step src Unit} {rest' : List Char} (h : Splits p s rest)
    (hq : ∀ s', s'.rest = rest → Splits q s' rest') :
    Splits (p >>= fun _ => q) s rest' := by
  obtain ⟨ts, hleaves, s', hrun, hts, hrest⟩ := h
  obtain ⟨us, husleaves, hmakes⟩ := hq s' hrest
  refine ⟨us ++ ts, ?_, ?_⟩
  · rintro t ht
    exact (List.mem_append.1 ht).elim (husleaves t) (hleaves t)
  · rw [hts, ← List.append_assoc] at hmakes
    exact .after hrun hmakes

end Parts

theorem run_stringParts {c : Char} (fuel : Nat) (hs : s.rest = c :: cs) :
    (stringParts q (fuel + 1) : Step src Unit).run s
      = (if c == q then adjoining (.word (String.singleton q)) false none 1
        else if c == '\\' then do
          adjoining Symbol.escapeSequence true none (escapeLength (c :: cs))
          stringParts q fuel
        else do
          adjoining Symbol.stringFragment true none (runLength (isPlain q) (c :: cs))
          stringParts q fuel : Step src Unit).run s := by
  obtain ⟨ts, r, hfaithful⟩ := s
  obtain rfl : r = c :: cs := hs
  rfl

theorem splits_of_run_eq {p p' : Step src Unit} (h : p.run s = p'.run s)
    (hp : Splits p' s rest) : Splits p s rest := by
  obtain ⟨ts, hleaves, s', hrun, hmakes⟩ := hp
  exact ⟨ts, hleaves, s', h.trans hrun, hmakes⟩

theorem takeWhile_plain (cs rest : List Char) :
    (cs ++ q :: rest).takeWhile (isPlain q) = cs.takeWhile (isPlain q) := by
  have hq : (q :: rest).takeWhile (isPlain q) = [] :=
    List.takeWhile_cons_of_neg (by simp [isPlain])
  induction cs with
  | nil => exact hq
  | cons c cs ih =>
      rw [List.cons_append, List.takeWhile_cons, List.takeWhile_cons, ih]

/-- The parts of a literal are read up to the closing quote. -/
theorem splits_stringParts {fuel : Nat} (hq : q ≠ '\\') (h : Body q cs)
    (hfuel : cs.length < fuel) (hs : s.rest = cs ++ q :: rest) :
    Splits (stringParts q fuel) s rest := by
  induction fuel generalizing cs s with
  | zero => cases hfuel
  | succ fuel ih =>
      cases h with
      | nil =>
          have hquote : s.rest = [q] ++ rest := hs
          refine splits_of_run_eq (run_stringParts fuel hs) ?_
          rw [if_pos (beq_self_eq_true q)]
          exact splits_adjoining (.word (String.singleton q)) false none hquote
            (List.cons_ne_nil q []) nofun
      | @plain c cs hc h =>
          -- the whole run of plain characters is one part
          have hne : c ≠ q ∧ c ≠ '\\' := by
            simp only [isPlain, Bool.and_eq_true, bne_iff_ne] at hc
            exact hc.1.1
          have hrun : runLength (isPlain q) (c :: (cs ++ q :: rest))
              = ((c :: cs).takeWhile (isPlain q)).length := by
            rw [runLength, ← List.cons_append, takeWhile_plain]
          have hsplit : s.rest = (c :: cs).takeWhile (isPlain q)
              ++ ((c :: cs).dropWhile (isPlain q) ++ q :: rest) := by
            rw [← List.append_assoc, List.takeWhile_append_dropWhile, hs]
          have hshort : ((c :: cs).dropWhile (isPlain q)).length < fuel := by
            rw [List.dropWhile_cons_of_pos hc]
            exact Nat.lt_of_le_of_lt (List.dropWhile_sublist _).length_le
              (Nat.lt_of_succ_lt_succ hfuel)
          rw [List.cons_append] at hs
          refine splits_of_run_eq (run_stringParts fuel hs) ?_
          rw [if_neg (by simpa using hne.1), if_neg (by simpa using hne.2), hrun]
          refine (splits_adjoining Symbol.stringFragment true none hsplit (by simp [hc])
            (by decide)).bind fun s' hs' => ?_
          exact ih (Body.plain hc h).dropWhile hshort hs'
      | @escape e cs he h =>
          have hlength : escapeLength ('\\' :: (e ++ cs ++ q :: rest)) = ('\\' :: e).length := by
            rw [List.append_assoc, he, List.length_cons]
          have hsplit : s.rest = '\\' :: e ++ (cs ++ q :: rest) := by
            rw [hs, ← List.append_assoc]
            rfl
          have hshort : cs.length < fuel := by
            simp only [List.length_cons, List.length_append] at hfuel
            omega
          rw [List.cons_append] at hs
          refine splits_of_run_eq (run_stringParts fuel hs) ?_
          rw [if_neg (by simpa using hq.symm), if_pos (by rfl), hlength]
          exact (splits_adjoining Symbol.escapeSequence true none hsplit (List.cons_ne_nil _ e)
            (by decide)).bind fun s' hs' => ih h hshort hs'

-- =============================================================== strings

theorem comes_quote (hb : Blank b) (hq : q = '"' ∨ q = '\'') :
    Comes (b ++ (q :: rest)) b .quote (String.ofList [q]) rest := by
  have hsolid : isGap q = false ∧ q ≠ '/' ∧ isNameStart q = false ∧ q ≠ '\\'
      ∧ q.isDigit = false ∧ q ≠ '.' := by
    rcases hq with rfl | rfl <;> decide
  obtain ⟨hgap, hcomment, hname, hslash, hdigit, hdot⟩ := hsolid
  refine ⟨by rw [String.toList_ofList]; rfl, hb, ?_, ?_⟩
  · rw [String.toList_ofList]
    exact solid_cons hgap hcomment
  · rw [String.toList_ofList, List.singleton_append, Lexeme.read]
    simp only [nameLength_of_not_isNameStart hname hslash,
      numberLength_of_not_isDigit hdigit hdot, Nat.lt_irrefl, if_false, gt_iff_lt]
    rw [if_pos (by rcases hq with rfl | rfl <;> rfl)]
    rfl

/-- What has been read is the text of the tree that it has become. -/
theorem code_of_trees {s' : Progress src} {m : Node} (hs : s.rest = b ++ (cs ++ rest))
    (ht : s'.trees = m :: s.trees) (hr : s'.rest = rest) (hlead : m.lead = Text.ofChars b) :
    m.code = Text.ofChars cs := by
  have h := s'.faithful.trans s.faithful.symm
  rw [ht, hr, hs, List.reverse_cons, Node.codeAll_append, Node.codeAll_singleton,
    Node.render, hlead] at h
  simpa using h

/-- A string literal is read as it is written. -/
theorem makes_string {n : Node} (hb : Blank b) (hq : q = '"' ∨ q = '\'') (h : Body q cs)
    (hn : n.is .string = true) (hnamed : n.named = true)
    (hcode : n.code = Text.ofChars (q :: (cs ++ [q])))
    (hs : s.rest = b ++ (q :: (cs ++ [q]) ++ rest)) :
    ∃ m, Node.Mirrors m (n.placed none (Text.ofChars b))
      ∧ Makes string s () (m :: s.trees) rest := by
  have hcomes : Comes s.rest b .quote (String.ofList [q]) (cs ++ q :: rest) := by
    have heq : s.rest = b ++ (q :: (cs ++ q :: rest)) := by
      rw [hs, List.cons_append, List.append_assoc]
      rfl
    rw [heq]
    exact comes_quote hb hq
  have hne : String.ofList [q] ≠ "" := by simp [← String.toList_inj]
  have hslash : q ≠ '\\' := by rcases hq with rfl | rfl <;> decide
  obtain ⟨s₁, hbare, hts₁, hrest₁⟩ := makes_bare hcomes hne none
  have hfuel : cs.length < s₁.rest.length + 1 := by
    rw [hrest₁, List.length_append]
    omega
  obtain ⟨ts, hleaves, s₂, hparts, hts₂, hrest₂⟩ := splits_stringParts hslash h hfuel hrest₁
  have htrees : s₂.trees = ((Node.token (String.ofList [q])).placed none (Text.ofChars b)
      :: ts.reverse).reverse ++ s.trees := by
    rw [hts₂, hts₁, List.reverse_cons, List.reverse_reverse, List.append_assoc]
    rfl
  have hmakes : Makes string s () (Node.gather .string
      ((Node.token (String.ofList [q])).placed none (Text.ofChars b) :: ts.reverse) :: s.trees)
      rest := by
    refine makes_of_reads (run_mark_of_comes hcomes) (makes_of_reads (run_peek s) ?_)
    rw [hcomes.ahead_eq]
    refine makes_of_reads (run_require rfl s) (.after hbare ?_)
    simp only [String.toList_ofList]
    refine makes_of_reads (a := s₁) rfl (.after hparts ?_)
    rw [← hrest₂]
    exact makes_close htrees .string
  obtain ⟨s₃, hrun, hts₃, hrest₃⟩ := hmakes
  refine ⟨_, ⟨?_, Node.every_iff.2 ⟨(rfl : Node.is _ _ = false), ?_⟩⟩,
    s₃, hrun, hts₃, hrest₃⟩
  · have hstring : (Node.gather .string ((Node.token (String.ofList [q])).placed none
        (Text.ofChars b) :: ts.reverse)).is .string = true := rfl
    have hnamed : (n.placed none (Text.ofChars b)).named = true := hnamed
    rw [Node.sealed_of_string hstring, code_of_trees hs hts₃ hrest₃ rfl,
      Node.sealed_of_string (n := n.placed none (Text.ofChars b)) hn, hnamed,
      Node.code_placed, hcode]
    rfl
  · have hquote : (Node.token (String.ofList [q])).IsSettled := by
      rcases hq with rfl | rfl <;> rfl
    rintro c hc
    rcases List.mem_cons.1 hc with rfl | hc
    · exact Node.every_iff.2 ⟨hquote, List.forall_mem_nil _⟩
    · obtain ⟨hcs, hsettled⟩ := hleaves c (List.mem_reverse.1 hc)
      refine Node.every_iff.2 ⟨hsettled, ?_⟩
      rw [hcs]
      exact List.forall_mem_nil _

end Codemod.Parse
