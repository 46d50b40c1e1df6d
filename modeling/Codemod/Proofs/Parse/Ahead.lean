/-
Reading what comes next.

A parser that looks at the next token sees the blank in front of it, the
token, and nothing of what is behind it (`Comes`). What it then does to the
stack of trees and to the characters left is all there is to its state, so
a run is told by the trees and the rest that it ends with (`Makes`).

Punctuation is read up to a character that does not go on with it
(`comes_mark`), and a name as far as its characters go (`comes_word`).
-/
import Codemod.Parse.Source
import Codemod.Proofs.Parse.Word

namespace Codemod.Parse

open Step

variable {src : List Char} {α β : Type}

-- ================================================================= gaps

/-- White space and nothing else. -/
def Blank (cs : List Char) : Prop := ∀ c ∈ cs, isGap c = true

/-- Neither white space nor a comment starts here. -/
structure Solid (cs : List Char) : Prop where
  head : ∀ c ∈ cs.head?, isGap c = false
  comment : commentLength cs = 0

theorem blank_nil : Blank [] := List.forall_mem_nil _

theorem blank_space : Blank [' '] := by
  intro c hc
  obtain rfl := List.mem_singleton.1 hc
  decide

section Gaps

variable {b cs : List Char}

theorem takeWhile_blank (hb : Blank b) (hs : Solid cs) :
    (b ++ cs).takeWhile isGap = b := by
  rw [List.takeWhile_append_of_pos hb]
  cases cs with
  | nil => simp
  | cons c cs => simp [hs.head c rfl]

theorem dropWhile_blank (hb : Blank b) (hs : Solid cs) :
    (b ++ cs).dropWhile isGap = cs := by
  rw [List.dropWhile_append_of_pos hb]
  cases cs with
  | nil => rfl
  | cons c cs => simp [hs.head c rfl]

theorem gap_read (hb : Blank b) (hs : Solid cs) :
    Gap.read (b ++ cs) = ⟨b.any isNewline, cs⟩ := by
  simp [Gap.read, Gap.skip, takeWhile_blank hb hs, dropWhile_blank hb hs, hs.comment]

end Gaps

-- =============================================================== tokens

/-- Behind the blank `b` the token `t` of the given shape comes next, and
then the rest. -/
structure Comes (cs b : List Char) (shape : Shape) (t : String) (rest : List Char) :
    Prop where
  eq : cs = b ++ (t.toList ++ rest)
  blank : Blank b
  solid : Solid (t.toList ++ rest)
  read : Lexeme.read (t.toList ++ rest) = ⟨shape, t, t.toList.length⟩

/-- The next token. -/
def ahead (cs : List Char) : Lexeme := Lexeme.read (Gap.read cs).rest

namespace Comes

variable {cs b rest : List Char} {shape : Shape} {t : String}

theorem gap_read (h : Comes cs b shape t rest) :
    Gap.read cs = ⟨b.any isNewline, t.toList ++ rest⟩ := by
  rw [h.eq, Parse.gap_read h.blank h.solid]

theorem ahead_eq (h : Comes cs b shape t rest) :
    ahead cs = ⟨shape, t, t.toList.length⟩ := by
  rw [ahead, h.gap_read, h.read]

/-- The token stands as well behind any other blank. -/
theorem behind (h : Comes cs b shape t rest) {b' : List Char} (hb : Blank b') :
    Comes (b' ++ (t.toList ++ rest)) b' shape t rest :=
  ⟨rfl, hb, h.solid, h.read⟩

end Comes

-- ================================================================= runs

/-- From `s` the step gives `a` and ends with these trees and this rest. -/
def Makes (p : Step src α) (s : Progress src) (a : α) (ts : List Node)
    (rest : List Char) : Prop :=
  ∃ s', p.run s = some (a, s') ∧ s'.trees = ts ∧ s'.rest = rest

section Runs

variable {p : Step src α} {k : α → Step src β} {s : Progress src} {a : α} {b : β}
  {ts us : List Node} {rest rest' : List Char}

theorem Makes.bind (h : Makes p s a ts rest)
    (hk : ∀ s', s'.trees = ts → s'.rest = rest → Makes (k a) s' b us rest') :
    Makes (p >>= k) s b us rest' := by
  obtain ⟨s', hp, hts, hrest⟩ := h
  obtain ⟨s'', hk, hus⟩ := hk s' hts hrest
  refine ⟨s'', ?_, hus⟩
  rw [StateT.run_bind, hp]
  exact hk

theorem Makes.after {s₁ : Progress src} (h : p.run s = some (a, s₁))
    (hk : Makes (k a) s₁ b us rest') : Makes (p >>= k) s b us rest' := by
  obtain ⟨s', hk, hus⟩ := hk
  refine ⟨s', ?_, hus⟩
  rw [StateT.run_bind, h]
  exact hk

/-- A step that reads ahead leaves the state alone. -/
theorem makes_of_reads (h : p.run s = some (a, s)) (hk : Makes (k a) s b us rest') :
    Makes (p >>= k) s b us rest' := .after h hk

theorem makes_pure (a : α) (s : Progress src) :
    Makes (pure a : Step src α) s a s.trees s.rest := ⟨s, rfl, rfl, rfl⟩

theorem run_peek (s : Progress src) :
    (peek : Step src Lexeme).run s = some (ahead s.rest, s) := rfl

theorem run_gap (s : Progress src) :
    (gap : Step src Gap).run s = some (Gap.read s.rest, s) := rfl

theorem run_sees (t : String) (s : Progress src) :
    (sees t : Step src Bool).run s = some ((ahead s.rest).isSpelled t, s) := rfl

theorem run_seesAny (us : List String) (s : Progress src) :
    (seesAny us : Step src Bool).run s = some (us.any (ahead s.rest).isSpelled, s) := rfl

theorem run_require {b : Bool} (hb : b = true) (s : Progress src) :
    (require b : Step src Unit).run s = some ((), s) := by
  rw [hb]
  rfl

theorem run_lastIsAny (ss : List Symbol) (s : Progress src) :
    (lastIsAny ss : Step src Bool).run s
      = some ((s.trees.head?.map (·.isAny ss)).getD false, s) := by
  obtain ⟨ts, rest, h⟩ := s
  cases ts <;> rfl

end Runs

-- =============================================================== reading

section Reading

variable {s : Progress src} {b rest : List Char} {shape : Shape} {t : String}

theorem flush_eq (h : Comes s.rest b shape t rest) : s.flush = s := by
  unfold Progress.flush
  cases s.rest.length with
  | zero => rfl
  | succ n =>
      have hblank : runLength isGap s.rest = b.length := by
        rw [runLength, h.eq, takeWhile_blank h.blank h.solid]
      have hnone : commentLength (s.rest.drop b.length) = 0 := by
        rw [h.eq, List.drop_left, h.solid.comment]
      simp [Progress.comments, hblank, hnone]

theorem run_mark_of_comes (h : Comes s.rest b shape t rest) :
    (mark : Step src Nat).run s = some (s.trees.length, s) := by
  have hrun : (mark : Step src Nat).run s = some (s.flush.trees.length, s.flush) := rfl
  rw [hrun, flush_eq h]

/-- The next token becomes a leaf, behind its blank. -/
theorem makes_take (h : Comes s.rest b shape t rest) (ht : t ≠ "")
    (kind : String → Kind) (named : Bool) (role : Option Role) :
    Makes (take kind named role) s ()
      (⟨none, kind t, named, role, Text.ofChars b, some t, [], []⟩ :: s.trees) rest := by
  have hblank : runLength isGap s.rest = b.length := by
    rw [runLength, h.eq, takeWhile_blank h.blank h.solid]
  have hread : Lexeme.read (s.rest.drop b.length) = ⟨shape, t, t.toList.length⟩ := by
    rw [h.eq, List.drop_left, h.read]
  have hlength : 0 < t.toList.length :=
    List.length_pos_of_ne_nil fun hnil => ht (String.toList_eq_nil_iff.1 hnil)
  have hflush : (modify (·.flush) : Step src Unit).run s = some ((), s) := by
    rw [StateT.run_modify, flush_eq h]
    rfl
  have hget : (get : Step src (Progress src)).run s = some (s, s) := rfl
  refine makes_of_reads hflush (makes_of_reads hget (makes_of_reads hget ?_))
  rw [hblank, hread]
  refine makes_of_reads (run_require (decide_eq_true hlength) s) ⟨_, rfl, ?_, ?_⟩
  · have htake : s.rest.take b.length = b := by rw [h.eq, List.take_left]
    have hdrop : (s.rest.drop b.length).take t.toList.length = t.toList := by
      rw [h.eq, List.drop_left, List.take_left]
    simp only [Progress.push, htake, hdrop]
    rfl
  · simp only [Progress.push, h.eq, List.drop_left]

theorem makes_leaf (h : Comes s.rest b shape t rest) (ht : t ≠ "") (sym : Symbol)
    (role : Option Role) : Makes (leaf sym role) s ()
      ((Node.leaf sym t).placed role (Text.ofChars b) :: s.trees) rest :=
  makes_take h ht _ _ _

theorem makes_bare (h : Comes s.rest b shape t rest) (ht : t ≠ "") (role : Option Role) :
    Makes (bare role) s () ((Node.token t).placed role (Text.ofChars b) :: s.trees) rest :=
  makes_take h ht _ _ _

/-- The shapes of words and punctuation. -/
def Shape.isSpelled (shape : Shape) : Bool := shape == .word || shape == .mark

theorem isSpelled_ahead (h : Comes s.rest b shape t rest) (u : String) :
    (ahead s.rest).isSpelled u = (shape.isSpelled && t == u) := by
  rw [h.ahead_eq]
  rfl

theorem makes_token (h : Comes s.rest b shape t rest) (hshape : shape.isSpelled = true)
    (ht : t ≠ "") :
    Makes (token t) s () ((Node.token t).placed none (Text.ofChars b) :: s.trees) rest := by
  refine makes_of_reads (run_sees t s) ?_
  rw [isSpelled_ahead h, hshape, beq_self_eq_true]
  exact makes_bare h ht none

theorem makes_tokenIf (h : Comes s.rest b shape t rest) (hshape : shape.isSpelled = true)
    (ht : t ≠ "") : Makes (tokenIf t) s true
      ((Node.token t).placed none (Text.ofChars b) :: s.trees) rest := by
  refine makes_of_reads (run_sees t s) ?_
  rw [isSpelled_ahead h, hshape, beq_self_eq_true]
  refine (makes_bare h ht none).bind fun s' hts hrest => ?_
  rw [← hts, ← hrest]
  exact makes_pure true s'

theorem run_tokenIf {u : String} (hu : (ahead s.rest).isSpelled u = false) :
    (tokenIf u : Step src Bool).run s = some (false, s) := by
  have hrun : (tokenIf u : Step src Bool).run s
      = (do
        if (ahead s.rest).isSpelled u then bare none
        return (ahead s.rest).isSpelled u : Step src Bool).run s := rfl
  rw [hrun, hu]
  rfl

theorem makes_role {n : Node} {ts : List Node} (h : s.trees = n :: ts) (r : Role) :
    Makes (role r) s () (n.placed (some r) n.lead :: ts) s.rest := by
  refine ⟨_, rfl, ?_, rfl⟩
  simp [Progress.revise, h]

/-- A node is closed around the trees above a height. -/
theorem makes_close {cs ts : List Node} (h : s.trees = cs.reverse ++ ts) (sym : Symbol) :
    Makes (close ts.length sym) s () (Node.gather sym cs :: ts) s.rest := by
  refine ⟨_, rfl, ?_, rfl⟩
  have hlength : s.trees.length - ts.length = cs.reverse.length := by
    rw [h, List.length_append, Nat.add_sub_cancel]
  simp only [Progress.gather, hlength]
  rw [h, List.take_left, List.drop_left, List.reverse_reverse]

end Reading

end Codemod.Parse
