/-
Reading a unified diff and following it.

A diff is read line by line. Behind the two lines that name the files
stand hunks: a line that says where the hunk stands and how many lines
of either text it has, and so many lines, each with a mark in front.
Lines of the old text that a hunk shows must be what is found there, and
lines between hunks are taken over (`patch?`).

Ranges are read as they are written (`range?_rangeText`), and the lines
of one hunk, read behind lines that are passed over, replace its old
lines by its new ones (`follow_hunk`).
-/
import Codemod.Diff.Unified

namespace Codemod.Diff

-- ================================================================ reading

/-- What follows a word. -/
def after? : Text → Text → Option Text
  | [], t => some t
  | _ :: _, [] => none
  | p :: word, q :: t => if p = q then after? word t else none

/-- The digits at the start of a text, and what follows them. -/
def digits : Text → List Char × Text
  | .scalar c :: t =>
    if c.isDigit then (c :: (digits t).1, (digits t).2) else ([], .scalar c :: t)
  | t => ([], t)

/-- The number at the start of a text, and what follows it. -/
def number? (t : Text) : Option (Nat × Text) :=
  let (ds, rest) := digits t
  if ds.isEmpty then none else some (Nat.ofDigitChars 10 ds 0, rest)

/-- Lines of a text: how many stand in front of them, and how many they
are. -/
structure Range where
  start : Nat
  count : Nat

/-- The range at the start of a text, and what follows it. The first of
no lines is the one in front. -/
def range? (t : Text) : Option (Range × Text) := do
  let (first, t) ← number? t
  match t with
  | .scalar ',' :: t => do
    let (count, t) ← number? t
    if count = 0 then some (⟨first, 0⟩, t)
    else if first = 0 then none
    else some (⟨first - 1, count⟩, t)
  | t => if first = 0 then none else some (⟨first - 1, 1⟩, t)

/-- The ranges that a hunk starts with, in the old and in the new text. -/
def header? (l : Line) : Option (Range × Range) := do
  let t ← after? "@@ -" l
  let (old, t) ← range? t
  let t ← after? " +" t
  let (new, t) ← range? t
  if t = Text.ofString " @@\n" then some (old, new) else none

-- ============================================================== following

/-- How far a diff has been followed. -/
structure Course where
  /-- The lines of the old text that are still to be read. -/
  rest : List Line
  /-- How many of them have been read. -/
  passed : Nat
  /-- The lines of the new text so far. -/
  out : List Line
  /-- How many lines of the old text the hunk still has. -/
  oldLeft : Nat
  /-- How many lines of the new text the hunk still has. -/
  newLeft : Nat

namespace Course

/-- The start of a hunk. What stands in front of it is taken over, and it
must stand in the new text where it says. -/
def enter (c : Course) (old new : Range) : Option Course :=
  let skipped := old.start - c.passed
  if c.passed ≤ old.start ∧ skipped ≤ c.rest.length
      ∧ new.start = c.out.length + skipped then
    some ⟨c.rest.drop skipped, old.start, c.out ++ c.rest.take skipped,
      old.count, new.count⟩
  else none

/-- A line that both texts have. -/
def keep (c : Course) (l : Line) : Option Course :=
  match c.rest, c.oldLeft, c.newLeft with
  | r :: rest, m + 1, n + 1 =>
    if r = l then some ⟨rest, c.passed + 1, c.out ++ [l], m, n⟩ else none
  | _, _, _ => none

/-- A line that the old text has. -/
def drop (c : Course) (l : Line) : Option Course :=
  match c.rest, c.oldLeft with
  | r :: rest, m + 1 =>
    if r = l then some ⟨rest, c.passed + 1, c.out, m, c.newLeft⟩ else none
  | _, _ => none

/-- A line that the new text has. -/
def add (c : Course) (l : Line) : Option Course :=
  match c.newLeft with
  | n + 1 => some ⟨c.rest, c.passed, c.out ++ [l], c.oldLeft, n⟩
  | 0 => none

/-- The hunk has no more lines. -/
def isBetween (c : Course) : Bool := c.oldLeft == 0 && c.newLeft == 0

/-- Follows one line of a diff. -/
def follow (c : Course) (l : Line) : Option Course :=
  if c.isBetween then do
    let (old, new) ← header? l
    c.enter old new
  else match l with
  | .scalar ' ' :: l => c.keep l
  | .scalar '-' :: l => c.drop l
  | .scalar '+' :: l => c.add l
  | _ => none

/-- The new text. -/
def finish (c : Course) : Option Text :=
  if c.isBetween then some (c.out ++ c.rest).flatten else none

end Course

/-- The text that a diff makes of another; none if the diff is not well
formed or does not belong to the text. -/
def patch? (diff before : Text) : Option Text :=
  match lines diff with
  | [] => some before
  | old :: new :: shown => do
    let _ ← after? "--- " old
    let _ ← after? "+++ " new
    let c ← shown.foldlM Course.follow ⟨lines before, 0, [], 0, 0⟩
    c.finish
  | _ => none

-- ================================================================= ranges

variable {t word : Text} {n count start : Nat}

theorem after?_append : after? word (word ++ t) = some t := by
  induction word with
  | nil => rfl
  | cons p word ih => simpa [after?] using ih

theorem digits_append {ds : List Char} (hds : ∀ c ∈ ds, c.isDigit = true)
    (ht : (digits t).1 = []) : digits (Text.ofChars ds ++ t) = (ds, t) := by
  induction ds with
  | nil =>
      change digits t = ([], t)
      match t, ht with
      | [], _ => rfl
      | .surrogate _ :: _, _ => rfl
      | .scalar c :: t, ht =>
        rw [digits] at ht ⊢
        split at ht
        · cases ht
        · next hc => rw [if_neg hc]
  | cons c ds ih =>
      rw [List.forall_mem_cons] at hds
      change digits (.scalar c :: (Text.ofChars ds ++ t)) = _
      rw [digits, if_pos hds.1, ih hds.2]

/-- A number is read as it is written. -/
theorem number?_toString (ht : (digits t).1 = []) :
    number? (Text.ofString (toString n) ++ t) = some (n, t) := by
  rw [Text.ofString, Nat.toString_eq_ofList_toDigits, String.toList_ofList, number?,
    digits_append (fun c => Nat.isDigit_of_mem_toDigits (by decide) (by decide)) ht]
  simp only [List.isEmpty_iff, Nat.toDigits_ne_nil, if_false,
    Nat.ofDigitChars_ten_toDigits]

theorem ofString_append (a b : String) :
    Text.ofString (a ++ b) = Text.ofString a ++ Text.ofString b := by
  simp [Text.ofString]

/-- A number in front of a blank. -/
theorem number?_blank :
    number? (Text.ofString (toString n) ++ .scalar ' ' :: t)
      = some (n, .scalar ' ' :: t) :=
  number?_toString rfl

/-- A number in front of a comma. -/
theorem number?_comma :
    number? (Text.ofString (toString n) ++ .scalar ',' :: t)
      = some (n, .scalar ',' :: t) :=
  number?_toString rfl

/-- A range is read as it is written. -/
theorem range?_rangeText :
    range? (Text.ofString (rangeText start count) ++ .scalar ' ' :: t)
      = some (⟨start, count⟩, .scalar ' ' :: t) := by
  rw [rangeText]
  by_cases hone : count = 1
  · subst hone
    simp only [range?, beq_self_eq_true, if_true, number?_blank, Option.bind_eq_bind,
      Option.bind_some, Nat.succ_ne_zero, if_false, Nat.add_sub_cancel]
    rfl
  · have hcomma (first : Nat) (tail : String) :
        Text.ofString (toString first ++ "," ++ tail) ++ .scalar ' ' :: t
          = Text.ofString (toString first)
            ++ .scalar ',' :: (Text.ofString tail ++ .scalar ' ' :: t) := by
      simp [Text.ofString, Text.ofChars]
    rw [beq_false_of_ne hone, if_neg Bool.false_ne_true]
    by_cases hzero : count = 0
    · subst hzero
      have hshown : toString start ++ ",0" = toString start ++ "," ++ toString 0 := by
        rw [String.append_assoc]
        rfl
      rw [beq_self_eq_true, if_pos rfl, hshown, hcomma]
      simp only [range?, number?_comma, number?_blank, Option.bind_eq_bind,
        Option.bind_some, if_true]
    · rw [beq_false_of_ne hzero, if_neg Bool.false_ne_true, hcomma]
      simp only [range?, number?_comma, number?_blank, Option.bind_eq_bind,
        Option.bind_some, if_neg hzero, Nat.succ_ne_zero, if_false,
        Nat.add_sub_cancel]

-- ================================================================== hunks

theorem flatten_flatMap {α : Type} (f : α → List Line) (xs : List α) :
    (xs.flatMap f).flatten = xs.flatMap fun x => (f x).flatten := by
  rw [List.flatMap, List.flatten_flatten, List.map_map]
  rfl

namespace Segment

/-- The lines of a diff that show a segment. -/
def shown : Segment → List Line
  | .same ls => ls.map (.scalar ' ' :: ·)
  | .change o n => o.map (.scalar '-' :: ·) ++ n.map (.scalar '+' :: ·)

theorem flatten_shown (s : Segment) : s.shown.flatten = s.text := by
  cases s with
  | same ls => simp [shown, text, marked, List.flatMap]
  | change o n => simp [shown, text, marked, List.flatMap]

end Segment

namespace Hunk

/-- The line that says where a hunk stands. -/
def header (h : Hunk) : Line :=
  Text.ofString ("@@ -" ++ rangeText h.oldStart h.old.length ++ " +"
    ++ rangeText h.newStart h.new.length ++ " @@\n")

/-- The lines of a diff that show a hunk. -/
def shown (h : Hunk) : List Line := h.header :: h.segments.flatMap Segment.shown

theorem flatten_shown (h : Hunk) : h.shown.flatten = h.text := by
  rw [shown, List.flatten_cons, flatten_flatMap, funext Segment.flatten_shown]
  rfl

/-- The ranges of a hunk are read from its first line. -/
theorem header?_header (h : Hunk) :
    header? h.header
      = some (⟨h.oldStart, h.old.length⟩, ⟨h.newStart, h.new.length⟩) := by
  have hheader : h.header = Text.ofString "@@ -"
      ++ (Text.ofString (rangeText h.oldStart h.old.length)
        ++ (Text.ofString " +"
          ++ (Text.ofString (rangeText h.newStart h.new.length)
            ++ Text.ofString " @@\n"))) := by
    simp only [header, ofString_append, List.append_assoc]
  have hfirst : ∀ u : Text, Text.ofString " +" ++ u
      = .scalar ' ' :: (Text.ofString "+" ++ u) := fun u => rfl
  have hsecond : Text.ofString " @@\n" = .scalar ' ' :: Text.ofString "@@\n" := rfl
  rw [hheader, header?, after?_append, hfirst]
  simp only [Option.bind_eq_bind, Option.bind_some, range?_rangeText]
  rw [← hfirst, after?_append, hsecond]
  simp [range?_rangeText]

end Hunk

-- ============================================================== following

namespace Course

variable {c : Course} {l : Line}

theorem follow_same (l : Line) (rest out : List Line) (i m k : Nat) :
    follow ⟨l :: rest, i, out, m + 1, k + 1⟩ (.scalar ' ' :: l)
      = some ⟨rest, i + 1, out ++ [l], m, k⟩ := by
  simp [follow, isBetween, keep]

theorem follow_old (l : Line) (rest out : List Line) (i m k : Nat) :
    follow ⟨l :: rest, i, out, m + 1, k⟩ (.scalar '-' :: l)
      = some ⟨rest, i + 1, out, m, k⟩ := by
  simp [follow, isBetween, drop]

theorem follow_new (l : Line) (rest out : List Line) (i m k : Nat) :
    follow ⟨rest, i, out, m, k + 1⟩ (.scalar '+' :: l)
      = some ⟨rest, i, out ++ [l], m, k⟩ := by
  simp [follow, isBetween, add]

/-- Lines that both texts have. -/
theorem foldlM_follow_same (ls rest out : List Line) (i m k : Nat) :
    (ls.map (.scalar ' ' :: ·)).foldlM follow
        ⟨ls ++ rest, i, out, ls.length + m, ls.length + k⟩
      = some ⟨rest, i + ls.length, out ++ ls, m, k⟩ := by
  induction ls generalizing i out with
  | nil => simp
  | cons l ls ih =>
      have h := ih (out ++ [l]) (i + 1)
      simp only [List.length_cons, Nat.succ_add, List.map_cons, List.foldlM_cons,
        List.cons_append, follow_same, Option.bind_eq_bind, Option.bind_some]
      rw [h, List.append_assoc, Nat.add_right_comm, Nat.add_assoc]
      rfl

/-- Lines that the old text has. -/
theorem foldlM_follow_old (ls rest out : List Line) (i m k : Nat) :
    (ls.map (.scalar '-' :: ·)).foldlM follow
        ⟨ls ++ rest, i, out, ls.length + m, k⟩
      = some ⟨rest, i + ls.length, out, m, k⟩ := by
  induction ls generalizing i with
  | nil => simp
  | cons l ls ih =>
      have h := ih (i + 1)
      simp only [List.length_cons, Nat.succ_add, List.map_cons, List.foldlM_cons,
        List.cons_append, follow_old, Option.bind_eq_bind, Option.bind_some]
      rw [h, Nat.add_right_comm, Nat.add_assoc]

/-- Lines that the new text has. -/
theorem foldlM_follow_new (ls rest out : List Line) (i m k : Nat) :
    (ls.map (.scalar '+' :: ·)).foldlM follow ⟨rest, i, out, m, ls.length + k⟩
      = some ⟨rest, i, out ++ ls, m, k⟩ := by
  induction ls generalizing out with
  | nil => simp
  | cons l ls ih =>
      have h := ih (out ++ [l])
      simp only [List.length_cons, Nat.succ_add, List.map_cons, List.foldlM_cons,
        follow_new, Option.bind_eq_bind, Option.bind_some]
      rw [h, List.append_assoc]
      rfl

/-- The lines of a segment replace its old lines by its new ones. -/
theorem foldlM_follow_segment (s : Segment) (rest out : List Line) (i m k : Nat) :
    s.shown.foldlM follow
        ⟨s.old ++ rest, i, out, s.old.length + m, s.new.length + k⟩
      = some ⟨rest, i + s.old.length, out ++ s.new, m, k⟩ := by
  cases s with
  | same ls => exact foldlM_follow_same ls rest out i m k
  | change o n =>
      simp only [Segment.shown, Segment.old, Segment.new, List.foldlM_append,
        foldlM_follow_old, foldlM_follow_new, Option.bind_eq_bind, Option.bind_some]

theorem foldlM_follow_segments (ss : List Segment) (rest out : List Line)
    (i m k : Nat) :
    (ss.flatMap Segment.shown).foldlM follow
        ⟨ss.flatMap Segment.old ++ rest, i, out,
          (ss.flatMap Segment.old).length + m, (ss.flatMap Segment.new).length + k⟩
      = some ⟨rest, i + (ss.flatMap Segment.old).length,
          out ++ ss.flatMap Segment.new, m, k⟩ := by
  induction ss generalizing i out with
  | nil => simp
  | cons s ss ih =>
      simp only [List.flatMap_cons, List.foldlM_append, List.append_assoc,
        List.length_append, Nat.add_assoc, foldlM_follow_segment,
        Option.bind_eq_bind, Option.bind_some, ih]

/-- A hunk, with what stands between it and the place reached, replaces
its old lines by its new ones. -/
theorem foldlM_follow_hunk {h : Hunk} {skipped rest out : List Line} {i : Nat}
    (hold : h.oldStart = i + skipped.length)
    (hnew : h.newStart = out.length + skipped.length) :
    h.shown.foldlM follow ⟨skipped ++ (h.old ++ rest), i, out, 0, 0⟩
      = some ⟨rest, h.oldStart + h.old.length, out ++ skipped ++ h.new, 0, 0⟩ := by
  have henter : follow ⟨skipped ++ (h.old ++ rest), i, out, 0, 0⟩ h.header
      = some ⟨h.old ++ rest, h.oldStart, out ++ skipped, h.old.length,
          h.new.length⟩ := by
    have hskipped : h.oldStart - i = skipped.length := by omega
    have hroom : skipped.length ≤ (skipped ++ (h.old ++ rest)).length := by simp
    have hi : i ≤ h.oldStart := by omega
    simp only [follow, isBetween, beq_self_eq_true, Bool.and_self, if_true,
      h.header?_header, Option.bind_eq_bind, Option.bind_some, enter, hskipped]
    rw [if_pos ⟨hi, hroom, hnew⟩, List.drop_left, List.take_left]
  rw [Hunk.shown, List.foldlM_cons, henter]
  exact foldlM_follow_segments h.segments rest (out ++ skipped) h.oldStart 0 0

/-- A line that the hunk drops is not another one. -/
theorem follow_old_of_ne {c' : Course} {l l' : Line}
    (h : c.follow (.scalar '-' :: l) = some c') (hne : l' ≠ l) :
    c.follow (.scalar '-' :: l') = none := by
  have hheader : ∀ t : Text, header? (.scalar '-' :: t) = none := fun t => rfl
  rw [follow] at h ⊢
  split at h
  · rw [hheader] at h
    cases h
  · next hbetween =>
      rw [if_neg hbetween]
      simp only [drop] at h ⊢
      split at h
      · next r rest m hrest hleft =>
          split at h
          · next hr => exact if_neg fun hr' => hne (hr'.symm.trans hr)
          · cases h
      · cases h

end Course

end Codemod.Diff
