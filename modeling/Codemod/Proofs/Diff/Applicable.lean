/-
Whether a diff can be applied.

The hunks of a script, followed line by line, turn the old lines into the
new ones (`foldlM_follow_hunks`), and there are hunks just when the
texts differ.

A diff is read as the lines it was written as when all of them end with
a line end, save perhaps the last. That is so but for one case: when the
last line of the old text has no line end and lines of the new text stand
in its place, the first of them runs together with it (`RunsTogether`),
and the diff belongs to no text. Otherwise it can be applied, and gives
the new text (`patch?_unified`).
-/
import Codemod.Proofs.Diff.Script
import Codemod.Proofs.Diff.Patch

namespace Codemod.Diff

variable {s : Segment} {ss : List Segment} {old new : List Line}

variable {h : Option Hunk} {hunk : Hunk} {hs : List Hunk}
variable {skipped ls rest out : List Line} {passed made i j : Nat}

-- ========================================================== collecting

/-- The hunk that shared lines start: it shows the last of them, if
anything follows. -/
def leading (ls : List Line) (i j : Nat) (ss : List Segment) : Option Hunk :=
  let shown := lastLines margin ls
  if ss.isEmpty then none
  else some ⟨i - shown.length, j - shown.length, [.same shown]⟩

theorem hunksFrom_change (o n : List Line) :
    hunksFrom h i j (.change o n :: ss)
      = hunksFrom (some ((h.getD ⟨i, j, []⟩).add (.change o n)))
          (i + o.length) (j + n.length) ss := rfl

theorem hunksFrom_same_none :
    hunksFrom none i j (.same ls :: ss)
      = hunksFrom (leading ls (i + ls.length) (j + ls.length) ss)
          (i + ls.length) (j + ls.length) ss := rfl

/-- Shared lines end a hunk if they are the last or many. -/
theorem hunksFrom_same_some :
    hunksFrom (some hunk) i j (.same ls :: ss)
      = if ss.isEmpty || 2 * margin < ls.length then
          hunk.add (.same (ls.take margin))
            :: hunksFrom (leading ls (i + ls.length) (j + ls.length) ss)
              (i + ls.length) (j + ls.length) ss
        else hunksFrom (some (hunk.add (.same ls))) (i + ls.length)
          (j + ls.length) ss := rfl

-- =========================================================== following

/-- The hunks, followed between two of them, lead to the given lines. -/
def LeadsTo (hs : List Hunk) (rest : List Line) (passed : Nat)
    (out new : List Line) : Prop :=
  ∃ rest' passed' out',
    (hs.flatMap Hunk.shown).foldlM Course.follow ⟨rest, passed, out, 0, 0⟩
        = some ⟨rest', passed', out', 0, 0⟩
      ∧ out' ++ rest' = new

theorem LeadsTo.cons (hold : hunk.oldStart = passed + skipped.length)
    (hnew : hunk.newStart = out.length + skipped.length)
    (hrest : LeadsTo hs rest (hunk.oldStart + hunk.old.length)
      (out ++ skipped ++ hunk.new) new) :
    LeadsTo (hunk :: hs) (skipped ++ (hunk.old ++ rest)) passed out new := by
  obtain ⟨rest', passed', out', hrun, hout⟩ := hrest
  refine ⟨rest', passed', out', ?_, hout⟩
  rw [List.flatMap_cons, List.foldlM_append, Course.foldlM_follow_hunk hold hnew]
  exact hrun

/-- A hunk that is collected stands behind lines that are passed over,
and the places reached in both texts are behind it. -/
structure Awaits (h : Option Hunk) (skipped : List Line) (passed made i j : Nat) :
    Prop where
  old : i = passed + skipped.length + (h.elim [] Hunk.old).length
  new : j = made + skipped.length + (h.elim [] Hunk.new).length
  start : ∀ hunk ∈ h, hunk.oldStart = passed + skipped.length
    ∧ hunk.newStart = made + skipped.length

@[simp] theorem Segment.old_same : (same ls).old = ls := rfl

@[simp] theorem Segment.new_same : (same ls).new = ls := rfl

@[simp] theorem Segment.old_change : (change old new).old = old := rfl

@[simp] theorem Segment.new_change : (change old new).new = new := rfl

@[simp] theorem Hunk.oldStart_add : (hunk.add s).oldStart = hunk.oldStart := rfl

@[simp] theorem Hunk.newStart_add : (hunk.add s).newStart = hunk.newStart := rfl

@[simp] theorem Hunk.old_add : (hunk.add s).old = hunk.old ++ s.old := by
  simp [Hunk.old, Hunk.add]

@[simp] theorem Hunk.new_add : (hunk.add s).new = hunk.new ++ s.new := by
  simp [Hunk.new, Hunk.add]

theorem old_getD_add : Hunk.old ((h.getD ⟨i, j, []⟩).add s)
    = h.elim [] Hunk.old ++ s.old := by
  cases h with
  | none => simp [Hunk.old, Hunk.add]
  | some hunk => simp

theorem new_getD_add : Hunk.new ((h.getD ⟨i, j, []⟩).add s)
    = h.elim [] Hunk.new ++ s.new := by
  cases h with
  | none => simp [Hunk.new, Hunk.add]
  | some hunk => simp

/-- Another segment for the hunk. -/
theorem Awaits.add (hw : Awaits h skipped passed made i j) (s : Segment) :
    Awaits (some ((h.getD ⟨i, j, []⟩).add s)) skipped passed made
      (i + s.old.length) (j + s.new.length) where
  old := by
    rw [Option.elim_some, old_getD_add, List.length_append, ← Nat.add_assoc, ← hw.old]
  new := by
    rw [Option.elim_some, new_getD_add, List.length_append, ← Nat.add_assoc, ← hw.new]
  start := by
    cases h with
    | none => simpa [Hunk.add] using And.intro hw.old hw.new
    | some hunk => simpa [Hunk.add] using hw.start

theorem lastLines_suffix (n : Nat) (ls : List Line) : lastLines n ls <:+ ls :=
  List.drop_suffix _ _

theorem lastLines_suffix_drop {n m : Nat} (h : n + m ≤ ls.length) :
    lastLines n ls <:+ ls.drop m := by
  have hlast : ls.length - n = m + (ls.length - n - m) := by omega
  rw [lastLines, hlast, ← List.drop_drop]
  exact List.drop_suffix _ _

/-- Behind a hunk, or in front of all, the shared lines that the next
hunk does not show are passed over. -/
theorem exists_awaits_leading {kept : List Line} (ls : List Line) (ss : List Segment)
    (hold : i = passed + kept.length) (hnew : j = made + kept.length)
    (hkept : ss ≠ [] → lastLines margin ls <:+ kept) :
    ∃ skipped, Awaits (leading ls i j ss) skipped passed made i j
      ∧ skipped ++ (leading ls i j ss).elim [] Hunk.old = kept
      ∧ skipped ++ (leading ls i j ss).elim [] Hunk.new = kept := by
  by_cases hss : ss = []
  · subst hss
    exact ⟨kept, ⟨by simpa [leading] using hold, by simpa [leading] using hnew,
      by simp [leading]⟩, by simp [leading], by simp [leading]⟩
  · obtain ⟨skipped, rfl⟩ := hkept hss
    rw [List.length_append] at hold hnew
    refine ⟨skipped, ⟨?_, ?_, ?_⟩, ?_, ?_⟩
    · simp [leading, hss, Hunk.old, Segment.old]
      omega
    · simp [leading, hss, Hunk.new, Segment.new]
      omega
    · simp [leading, hss]
      omega
    · simp [leading, hss, Hunk.old, Segment.old]
    · simp [leading, hss, Hunk.new, Segment.new]

/-- The hunks, followed from where the first of them is awaited, lead to
the new lines. -/
theorem leadsTo_hunksFrom (ss : List Segment)
    (hw : Awaits h skipped passed out.length i j) :
    LeadsTo (hunksFrom h i j ss)
      (skipped ++ h.elim [] Hunk.old ++ ss.flatMap Segment.old) passed out
      (out ++ (skipped ++ h.elim [] Hunk.new ++ ss.flatMap Segment.new)) := by
  induction ss generalizing h i j skipped passed out with
  | nil =>
      cases h with
      | none => exact ⟨_, _, _, rfl, by simp⟩
      | some hunk =>
          obtain ⟨hold, hnew⟩ := hw.start hunk rfl
          rw [List.flatMap_nil, List.append_assoc]
          refine LeadsTo.cons hold hnew ⟨_, _, _, rfl, by simp⟩
  | cons s ss ih =>
      cases s with
      | change o n =>
          have hrest := ih (hw.add (.change o n))
          rw [Option.elim_some, old_getD_add, Option.elim_some, new_getD_add] at hrest
          rw [hunksFrom_change, List.flatMap_cons, List.flatMap_cons]
          simpa [List.append_assoc] using hrest
      | same ls =>
          cases h with
          | none =>
              have hpassed : i + ls.length = passed + (skipped ++ ls).length := by
                simp [hw.old, Nat.add_assoc]
              have hmade : j + ls.length = out.length + (skipped ++ ls).length := by
                simp [hw.new, Nat.add_assoc]
              obtain ⟨skipped', hw', hold, hnew⟩ :=
                exists_awaits_leading ls ss hpassed hmade
                  fun _ => (lastLines_suffix _ ls).trans (List.suffix_append _ _)
              have hrest := ih hw'
              rw [hold, hnew] at hrest
              rw [hunksFrom_same_none]
              simpa using hrest
          | some hunk =>
              rw [hunksFrom_same_some]
              split
              · next hends =>
                  -- the hunk shows the first of the lines, and the rest of
                  -- them are awaited behind it
                  obtain ⟨hstart, hstart'⟩ := hw.start hunk rfl
                  have hold := hw.old
                  have hnew := hw.new
                  have hlen := congrArg List.length (List.take_append_drop margin ls)
                  rw [Option.elim_some] at hold hnew
                  rw [List.length_append] at hlen
                  have hpassed : i + ls.length = hunk.oldStart
                      + (hunk.old ++ ls.take margin).length
                      + (ls.drop margin).length := by
                    simp only [List.length_append]
                    omega
                  have hmade : j + ls.length
                      = (out ++ skipped ++ (hunk.new ++ ls.take margin)).length
                        + (ls.drop margin).length := by
                    simp only [List.length_append]
                    omega
                  obtain ⟨skipped', hw', hold', hnew'⟩ :=
                    exists_awaits_leading ls ss hpassed hmade fun hss => by
                      simp only [List.isEmpty_iff, hss, Bool.or_eq_true, false_or,
                        decide_eq_true_eq] at hends
                      exact lastLines_suffix_drop (by omega)
                  have hrest := ih hw'
                  rw [hold', hnew'] at hrest
                  have hcons : LeadsTo (hunk.add (.same (ls.take margin)) :: _)
                      (skipped ++ _) passed out _ :=
                    LeadsTo.cons hstart hstart' (by simpa using hrest)
                  have hjoin (more : List Line) :
                      ls.take margin ++ (ls.drop margin ++ more) = ls ++ more := by
                    rw [← List.append_assoc, List.take_append_drop]
                  simpa [hjoin] using hcons
              · have hrest := ih (hw.add (.same ls))
                simpa using hrest

/-- The hunks of a script, followed from the start, lead from the old
lines to the new ones. -/
theorem leadsTo_hunks (hss : IsScript old new ss) :
    LeadsTo (hunks ss) old 0 [] new := by
  have hstart : Awaits none [] 0 ([] : List Line).length 0 0 := ⟨rfl, rfl, by simp⟩
  have h := leadsTo_hunksFrom ss hstart
  simpa [hunks, hss.old, hss.new] using h

/-- There is nothing to follow just when the lists are equal. -/
theorem hunks_script_eq_nil_iff : hunks (script old new) = [] ↔ old = new := by
  constructor
  · intro hnil
    obtain ⟨rest, passed, out, hrun, hnew⟩ := leadsTo_hunks (isScript_script old new)
    rw [hnil] at hrun
    obtain ⟨rfl, -, rfl⟩ : old = rest ∧ 0 = passed ∧ [] = out := by
      simpa using hrun
    exact hnew
  · rintro rfl
    rcases script_self old with h | h
    · rw [h]
      rfl
    · rw [h]
      rfl

-- ========================================================= what is shown

/-- All lines of a segment end with a line end. -/
def Segment.IsClosed (s : Segment) : Prop := ∀ l ∈ s.old ++ s.new, Diff.IsClosed l

theorem IsScript.isClosed_head (hss : IsScript old new (s :: ss)) (hne : ss ≠ [])
    (hold : Lined old) (hnew : Lined new) : s.IsClosed := by
  obtain ⟨hs, hhead, old', new', rfl, rfl, hrest⟩ := isScript_cons.1 hss
  obtain ⟨r, rs, rfl⟩ := List.exists_cons_of_ne_nil hne
  obtain ⟨hr, -, old'', new'', rfl, rfl, -⟩ := isScript_cons.1 hrest
  intro l hl
  cases s with
  | same ls =>
      simp only [Segment.old_same, Segment.new_same, List.mem_append, or_self] at hl
      rcases hr with hr | hr
      · exact hold.closed (by simp [hr]) l hl
      · exact hnew.closed (by simp [hr]) l hl
  | change o n =>
      cases r with
      | change o' n' => exact absurd rfl (hhead rfl)
      | same ls =>
          have hls : ls ≠ [] := by simpa using hr
          rcases List.mem_append.1 hl with hl | hl
          · exact hold.closed (by simp [hls]) l hl
          · exact hnew.closed (by simp [hls]) l hl

/-- Lines without a line end are in the last segment. -/
theorem IsScript.isClosed (hss : IsScript old new (ss ++ [s])) (hold : Lined old)
    (hnew : Lined new) : (∀ r ∈ ss, r.IsClosed) ∧ Lined s.old ∧ Lined s.new := by
  induction ss generalizing old new with
  | nil =>
      obtain ⟨-, -, old', new', rfl, rfl, -⟩ := isScript_cons.1 hss
      exact ⟨by simp, hold.left, hnew.left⟩
  | cons r ss ih =>
      rw [List.cons_append] at hss
      have hr := hss.isClosed_head (by simp) hold hnew
      obtain ⟨-, -, old', new', rfl, rfl, hrest⟩ := isScript_cons.1 hss
      obtain ⟨hinit, hlast⟩ := ih hrest hold.right hnew.right
      rw [List.forall_mem_cons]
      exact ⟨⟨hr, hinit⟩, hlast⟩

theorem Segment.IsClosed.shown (hs : s.IsClosed) : ∀ l ∈ s.shown, Diff.IsClosed l := by
  intro l hl
  cases s with
  | same ls =>
      obtain ⟨k, hk, rfl⟩ := List.mem_map.1 hl
      exact isClosed_cons rfl (hs k (List.mem_append_left _ hk))
  | change o n =>
      rcases List.mem_append.1 hl with hl | hl
      · obtain ⟨k, hk, rfl⟩ := List.mem_map.1 hl
        exact isClosed_cons rfl (hs k (List.mem_append_left _ hk))
      · obtain ⟨k, hk, rfl⟩ := List.mem_map.1 hl
        exact isClosed_cons rfl (hs k (List.mem_append_right _ hk))

theorem isLineEnd_of_isDigit {c : Char} (hc : c.isDigit = true) :
    isLineEnd (.scalar c) = false := by
  rw [Char.isDigit, Bool.and_eq_true, decide_eq_true_eq, decide_eq_true_eq] at hc
  have hlow : 0x30 ≤ c.toNat := UInt32.le_iff_toNat_le.1 hc.1
  have hhigh : c.toNat ≤ 0x39 := UInt32.le_iff_toNat_le.1 hc.2
  simp only [isLineEnd, Point.code]
  grind

theorem isOpen_toString (n : Nat) : IsOpen (Text.ofString (toString n)) := by
  intro p hp
  rw [Text.ofString, Nat.toString_eq_ofList_toDigits, String.toList_ofList] at hp
  obtain ⟨c, hc, rfl⟩ := List.mem_map.1 hp
  exact isLineEnd_of_isDigit (Nat.isDigit_of_mem_toDigits (by decide) (by decide) hc)

theorem isOpen_rangeText (start count : Nat) :
    IsOpen (Text.ofString (rangeText start count)) := by
  have hcomma : IsOpen (Text.ofString ",") := by decide
  have hnone : IsOpen (Text.ofString ",0") := by decide
  rw [rangeText]
  split
  · exact isOpen_toString _
  · split
    · rw [ofString_append]
      exact isOpen_append (isOpen_toString _) hnone
    · rw [ofString_append, ofString_append]
      exact isOpen_append (isOpen_append (isOpen_toString _) hcomma) (isOpen_toString _)

/-- The line that says where a hunk stands is a line. -/
theorem Hunk.isClosed_header (hunk : Hunk) : IsClosed hunk.header := by
  have hfirst : IsOpen (Text.ofString "@@ -") := by decide
  have hsecond : IsOpen (Text.ofString " +") := by decide
  have hlast : IsClosed (Text.ofString " @@\n") :=
    ⟨Text.ofString " @@", by decide, Or.inl ⟨.scalar '\n', by decide, rfl⟩⟩
  rw [header, ofString_append, ofString_append, ofString_append, ofString_append]
  exact isClosed_append (isOpen_append (isOpen_append (isOpen_append hfirst
    (isOpen_rangeText _ _)) hsecond) (isOpen_rangeText _ _)) hlast

/-- All lines that a hunk shows so far end with a line end. -/
def Hunk.IsClosed (hunk : Hunk) : Prop :=
  ∀ l ∈ hunk.segments.flatMap Segment.shown, Diff.IsClosed l

theorem Hunk.IsClosed.add (hh : hunk.IsClosed) (hs : s.IsClosed) :
    (hunk.add s).IsClosed := by
  intro l hl
  rw [Hunk.add, List.flatMap_append, List.flatMap_singleton, List.mem_append] at hl
  exact hl.elim (hh l) (hs.shown l)

/-- What a hunk shows up to its last segment. -/
theorem Hunk.IsClosed.exists_shown_add (hh : hunk.IsClosed) (s : Segment) :
    ∃ front, (∀ l ∈ front, Diff.IsClosed l)
      ∧ (hunk.add s).shown = front ++ s.shown := by
  refine ⟨(hunk.add s).header :: hunk.segments.flatMap Segment.shown, ?_, ?_⟩
  · rw [List.forall_mem_cons]
    exact ⟨(hunk.add s).isClosed_header, hh⟩
  · simp [shown, Hunk.add]

theorem Segment.IsClosed.subset {ms : List Line} (hs : (same ls).IsClosed)
    (hms : ms ⊆ ls) : (same ms).IsClosed := by
  intro l hl
  simp only [old_same, new_same, List.mem_append, or_self] at hl
  exact hs l (List.mem_append_left _ (hms hl))

theorem isClosed_leading (ss : List Segment) (hs : (Segment.same ls).IsClosed) :
    ∀ hunk ∈ leading ls i j ss, hunk.IsClosed := by
  intro hunk hhunk
  rw [leading, Option.mem_def, Option.ite_none_left_eq_some] at hhunk
  obtain rfl := Option.some.inj hhunk.2
  have hlast := (hs.subset (lastLines_suffix margin ls).subset).shown
  rwa [← List.flatMap_singleton (f := Segment.shown)] at hlast

/-- What the hunks show is what the last segment shows, or the first of
its lines if it is shared, behind lines that all end with a line end. -/
theorem exists_shown_hunksFrom (ss : List Segment)
    (hh : ∀ hunk ∈ h, hunk.IsClosed) (hss : ∀ r ∈ ss, r.IsClosed) :
    ∃ front r, (∀ l ∈ front, IsClosed l)
      ∧ (hunksFrom h i j (ss ++ [s])).flatMap Hunk.shown = front ++ r.shown
      ∧ (r = s ∨ ∃ ls n, s = .same ls ∧ r = .same (ls.take n)) := by
  have hgetD {h : Option Hunk} (i j : Nat) (hh : ∀ hunk ∈ h, hunk.IsClosed) :
      (h.getD ⟨i, j, []⟩).IsClosed := by
    cases h with
    | none => exact fun _ hl => (by cases hl)
    | some hunk => exact hh hunk rfl
  induction ss generalizing h i j with
  | nil =>
      cases s with
      | change o n =>
          obtain ⟨front, hfront, hshown⟩ :=
            (hgetD i j hh).exists_shown_add (.change o n)
          exact ⟨front, _, hfront, by simpa [hunksFrom] using hshown, Or.inl rfl⟩
      | same ls =>
          cases h with
          | none =>
              exact ⟨[], .same (ls.take 0), by simp, by simp [hunksFrom, Segment.shown],
                Or.inr ⟨ls, 0, rfl, rfl⟩⟩
          | some hunk =>
              obtain ⟨front, hfront, hshown⟩ :=
                (hh hunk rfl).exists_shown_add (.same (ls.take margin))
              exact ⟨front, _, hfront, by simpa [hunksFrom] using hshown,
                Or.inr ⟨ls, margin, rfl, rfl⟩⟩
  | cons r ss ih =>
      rw [List.forall_mem_cons] at hss
      obtain ⟨hr, hss⟩ := hss
      rw [List.cons_append]
      cases r with
      | change o n =>
          rw [hunksFrom_change]
          refine ih ?_ hss
          rintro _ ⟨⟩
          exact (hgetD i j hh).add hr
      | same ls =>
          have hnext := ih (i := i + ls.length) (j := j + ls.length)
            (isClosed_leading (i := i + ls.length) (j := j + ls.length) (ss ++ [s]) hr)
            hss
          cases h with
          | none => exact hnext
          | some hunk =>
              rw [hunksFrom_same_some]
              split
              · obtain ⟨front, r, hfront, hshown, hr'⟩ := hnext
                obtain ⟨before, hbefore, hshown'⟩ :=
                  (hh hunk rfl).exists_shown_add (.same (ls.take margin))
                have htake := (hr.subset (List.take_subset margin ls)).shown
                refine ⟨before ++ (Segment.same (ls.take margin)).shown ++ front, r,
                  ?_, ?_, hr'⟩
                · simp only [List.forall_mem_append]
                  exact ⟨⟨hbefore, htake⟩, hfront⟩
                · simp only [List.flatMap_cons, hshown, hshown', List.append_assoc]
              · refine ih ?_ hss
                rintro _ ⟨⟩
                exact (hh hunk rfl).add hr

-- ======================================================== what is read

/-- The last line of the old text has no line end, and the new text has
lines in its place. -/
def RunsTogether (before after : Text) : Prop :=
  ∃ ss o a b n, IsOpen a
    ∧ script (lines before) (lines after) = ss ++ [.change (o ++ [a]) (b :: n)]

variable {path : String} {before after : Text}

theorem lined_shown (hold : Lined s.old) (hnew : Lined s.new) :
    Lined s.shown
      ∨ ∃ o a b n, IsOpen a ∧ s = .change (o ++ [a]) (b :: n) := by
  cases s with
  | same ls => exact Or.inl (lined_map_cons rfl hold)
  | change o n =>
      rw [Segment.old_change] at hold
      rw [Segment.new_change] at hnew
      have hplus := lined_map_cons (p := .scalar '+') rfl hnew
      rcases o.eq_nil_or_concat' with rfl | ⟨o, a, rfl⟩
      · exact Or.inl (by simpa [Segment.shown] using hplus)
      · cases n with
        | nil => exact Or.inl (by simpa [Segment.shown] using lined_map_cons rfl hold)
        | cons b n =>
            obtain ⟨-, ha | ha⟩ := hold.right
            · left
              refine lined_append (fun l hl => ?_) hplus
              obtain ⟨k, hk, rfl⟩ := List.mem_map.1 hl
              refine isClosed_cons rfl ?_
              rcases List.mem_append.1 hk with hk | hk
              · exact hold.closed (List.cons_ne_nil a []) k hk
              · rwa [List.mem_singleton.1 hk]
            · exact Or.inr ⟨o, a, b, n, ha, rfl⟩

/-- The first line of a diff. -/
def oldHeader (path : String) : Line := Text.ofString ("--- a/" ++ path ++ "\n")

/-- The second line of a diff. -/
def newHeader (path : String) : Line := Text.ofString ("+++ b/" ++ path ++ "\n")

theorem isClosed_fileHeader {mark : String} (hmark : IsOpen (Text.ofString mark))
    (hpath : IsOpen (Text.ofString path)) :
    IsClosed (Text.ofString (mark ++ path ++ "\n")) := by
  have hlast : IsClosed (Text.ofString "\n") :=
    ⟨[], by decide, Or.inl ⟨.scalar '\n', by decide, rfl⟩⟩
  rw [ofString_append, ofString_append]
  exact isClosed_append (isOpen_append hmark hpath) hlast

theorem unified_eq_flatten (hne : hunks (script (lines before) (lines after)) ≠ []) :
    unified path before after = (oldHeader path :: newHeader path
      :: (hunks (script (lines before) (lines after))).flatMap Hunk.shown).flatten := by
  rw [unified]
  split
  · contradiction
  · next hs =>
      rw [List.flatten_cons, List.flatten_cons, flatten_flatMap,
        funext Hunk.flatten_shown, ← List.append_assoc, oldHeader, newHeader,
        ← ofString_append]
      congr 2
      simp [← String.toList_inj]

theorem head?_shown {l : Line} (hl : l ∈ hs.flatMap Hunk.shown) :
    l.head? ≠ some (.scalar '\n') := by
  obtain ⟨hunk, -, hl⟩ := List.mem_flatMap.1 hl
  rcases List.mem_cons.1 hl with rfl | hl
  · simp [Hunk.header, Text.ofString, Text.ofChars]
  · obtain ⟨s, -, hl⟩ := List.mem_flatMap.1 hl
    cases s with
    | same ls =>
        obtain ⟨k, -, rfl⟩ := List.mem_map.1 hl
        simp
    | change o n =>
        rcases List.mem_append.1 hl with hl | hl
        · obtain ⟨k, -, rfl⟩ := List.mem_map.1 hl
          simp
        · obtain ⟨k, -, rfl⟩ := List.mem_map.1 hl
          simp

/-- Lines that stand behind the two that name the files are followed, if
they are read as they are. -/
theorem patch?_flatten {shown : List Line} (hpath : IsOpen (Text.ofString path))
    (hlined : Lined shown) (hhead : ∀ l ∈ shown, l.head? ≠ some (.scalar '\n')) :
    patch? (oldHeader path :: newHeader path :: shown).flatten before
      = (shown.foldlM Course.follow ⟨lines before, 0, [], 0, 0⟩).bind
          Course.finish := by
  have hfirst : IsClosed (oldHeader path) := isClosed_fileHeader (by decide) hpath
  have hsecond : IsClosed (newHeader path) := isClosed_fileHeader (by decide) hpath
  have hread := lines_flatten (lined_cons hfirst (lined_cons hsecond hlined)) (by
    simp only [List.forall_mem_cons]
    refine ⟨?_, ?_, hhead⟩
    · simp [oldHeader, Text.ofString, Text.ofChars]
    · simp [newHeader, Text.ofString, Text.ofChars])
  have hold : ∃ t, after? "--- " (oldHeader path) = some t := by
    simp [oldHeader, Text.ofString, Text.ofChars, after?]
  have hnew : ∃ t, after? "+++ " (newHeader path) = some t := by
    simp [newHeader, Text.ofString, Text.ofChars, after?]
  obtain ⟨t, hold⟩ := hold
  obtain ⟨u, hnew⟩ := hnew
  simp only [patch?, hread, hold, hnew, Option.bind_eq_bind, Option.bind_some]

/-- If nothing runs together, the diff is read as it was written. -/
theorem lined_shown_hunks (hapart : ¬ RunsTogether before after) :
    Lined ((hunks (script (lines before) (lines after))).flatMap Hunk.shown) := by
  have hscript := isScript_script (lines before) (lines after)
  rcases (script (lines before) (lines after)).eq_nil_or_concat' with hnil | ⟨ss, s, hss⟩
  · rw [hnil]
    trivial
  · rw [hss] at hscript
    obtain ⟨hinit, hold, hnew⟩ := hscript.isClosed (lined_lines _) (lined_lines _)
    obtain ⟨front, r, hfront, hshown, hr⟩ := exists_shown_hunksFrom (h := none)
      (s := s) (i := 0) (j := 0) ss (by simp) hinit
    rw [hss, hunks, hshown]
    refine lined_append hfront ?_
    rcases hr with rfl | ⟨ls, n, rfl, rfl⟩
    · rcases lined_shown hold hnew with hlined | ⟨o, a, b, n, ha, rfl⟩
      · exact hlined
      · exact absurd ⟨ss, o, a, b, n, ha, hss⟩ hapart
    · rw [Segment.old_same, ← List.take_append_drop n ls] at hold
      exact lined_map_cons rfl hold.left

/-- A diff in which nothing runs together can be applied. -/
theorem patch?_unified_of_not (hpath : IsOpen (Text.ofString path))
    (hne : hunks (script (lines before) (lines after)) ≠ [])
    (hapart : ¬ RunsTogether before after) :
    patch? (unified path before after) before = some after := by
  obtain ⟨rest, passed, out, hrun, hnew⟩ :=
    leadsTo_hunks (isScript_script (lines before) (lines after))
  rw [unified_eq_flatten hne,
    patch?_flatten hpath (lined_shown_hunks hapart) fun l => head?_shown, hrun]
  change some (out ++ rest).flatten = some after
  rw [hnew, flatten_lines]

/-- What is shown if two lines run together: read as one, the two and
the lines around them are lines. -/
theorem RunsTogether.exists_shown (h : RunsTogether before after) :
    ∃ front a b back,
      (hunks (script (lines before) (lines after))).flatMap Hunk.shown
          = front ++ (.scalar '-' :: a) :: (.scalar '+' :: b) :: back
        ∧ Lined (front ++ (.scalar '-' :: a ++ .scalar '+' :: b) :: back) := by
  obtain ⟨ss, o, a, b, n, ha, hss⟩ := h
  have hscript := isScript_script (lines before) (lines after)
  rw [hss] at hscript
  obtain ⟨hinit, hold, hnew⟩ := hscript.isClosed (lined_lines _) (lined_lines _)
  obtain ⟨front, r, hfront, hshown, hr⟩ := exists_shown_hunksFrom (h := none)
    (s := .change (o ++ [a]) (b :: n)) (i := 0) (j := 0) ss (by simp) hinit
  obtain rfl : r = .change (o ++ [a]) (b :: n) := by simpa using hr
  refine ⟨front ++ o.map (.scalar '-' :: ·), a, b, n.map (.scalar '+' :: ·), ?_, ?_⟩
  · rw [hss, hunks, hshown]
    simp [Segment.shown]
  · rw [List.append_assoc]
    refine lined_append hfront (lined_append (fun l hl => ?_)
      (lined_append_cons (isOpen_cons rfl ha) (lined_map_cons rfl hnew)))
    obtain ⟨k, hk, rfl⟩ := List.mem_map.1 hl
    exact isClosed_cons rfl (hold.closed (List.cons_ne_nil a []) k hk)

/-- If two lines run together, the diff belongs to no text. -/
theorem patch?_unified_of_runsTogether (hpath : IsOpen (Text.ofString path))
    (h : RunsTogether before after) :
    patch? (unified path before after) before = none := by
  obtain ⟨rest, passed, out, hrun, -⟩ :=
    leadsTo_hunks (isScript_script (lines before) (lines after))
  obtain ⟨front, a, b, back, hshown, hlined⟩ := h.exists_shown
  have hne : hunks (script (lines before) (lines after)) ≠ [] := by
    intro hnil
    simp [hnil] at hshown
  have hhead : ∀ l ∈ front ++ (.scalar '-' :: a ++ .scalar '+' :: b) :: back,
      l.head? ≠ some (.scalar '\n') := by
    have hwritten : ∀ l ∈ (hunks (script (lines before) (lines after))).flatMap
        Hunk.shown, l.head? ≠ some (.scalar '\n') := fun l => head?_shown
    rw [hshown] at hwritten
    simp only [List.forall_mem_append, List.forall_mem_cons] at hwritten ⊢
    exact ⟨hwritten.1, by simp, hwritten.2.2.2⟩
  have hread : (oldHeader path :: newHeader path
        :: (front ++ (.scalar '-' :: a) :: (.scalar '+' :: b) :: back)).flatten
      = (oldHeader path :: newHeader path
        :: (front ++ (.scalar '-' :: a ++ .scalar '+' :: b) :: back)).flatten := by
    simp
  -- the line dropped last is what is due, so the two as one are not
  rw [hshown, List.foldlM_append] at hrun
  obtain ⟨c, hc, hrun⟩ := Option.bind_eq_some_iff.1 hrun
  rw [List.foldlM_cons] at hrun
  obtain ⟨c', hc', -⟩ := Option.bind_eq_some_iff.1 hrun
  have hnone : c.follow (.scalar '-' :: a ++ .scalar '+' :: b) = none :=
    Course.follow_old_of_ne hc' (by simp)
  rw [unified_eq_flatten hne, hshown, hread, patch?_flatten hpath hlined hhead,
    List.foldlM_append, hc, Option.bind_eq_bind, Option.bind_some, List.foldlM_cons,
    hnone]
  rfl

/-- Under a path without line ends, the diff of two texts is read back
line by line as a unified diff that turns the one text into the other,
unless two lines of it run together; and it is empty just when the texts
are equal. -/
theorem patch?_unified (hpath : IsOpen (Text.ofString path)) :
    (patch? (unified path before after) before = some after
        ↔ ¬ RunsTogether before after)
      ∧ (unified path before after = [] ↔ before = after) := by
  have hlines : hunks (script (lines before) (lines after)) = [] ↔ before = after := by
    rw [hunks_script_eq_nil_iff]
    constructor
    · intro h
      rw [← flatten_lines before, h, flatten_lines]
    · exact congrArg lines
  by_cases hnil : hunks (script (lines before) (lines after)) = []
  · have hunified : unified path before after = [] := by rw [unified, hnil]
    obtain rfl := hlines.1 hnil
    have hapart : ¬ RunsTogether before before := by
      intro h
      obtain ⟨front, a, b, back, hshown, -⟩ := h.exists_shown
      simp [hnil] at hshown
    rw [hunified]
    exact ⟨iff_of_true rfl hapart, iff_of_true rfl rfl⟩
  · have hunified : unified path before after ≠ [] := by
      rw [unified_eq_flatten hnil]
      simp [oldHeader, Text.ofString, Text.ofChars]
    refine ⟨⟨fun hpatch h => ?_, patch?_unified_of_not hpath hnil⟩,
      iff_of_false hunified fun h => hnil (hlines.2 h)⟩
    rw [patch?_unified_of_runsTogether hpath h] at hpatch
    cases hpatch

/-- Lines dropped from the end of a text that has no line end there. -/
theorem patch?_unified_dropped :
    IsOpen (Text.ofString "f.js") ∧ ¬ RunsTogether "a\nb" "a\n"
      ∧ patch? (unified "f.js" "a\nb" "a\n") "a\nb" = some "a\n" := by
  have hpath : IsOpen (Text.ofString "f.js") := by decide
  have hapart : ¬ RunsTogether "a\nb" "a\n" := by
    rintro ⟨ss, o, a, b, n, -, hss⟩
    have hlast : (script (lines "a\nb") (lines "a\n")).getLast?
        = some (.change [Text.ofString "b"] []) := rfl
    rw [hss] at hlast
    simp at hlast
  exact ⟨hpath, hapart, (patch?_unified hpath).1.2 hapart⟩

/-- The line put in the place of an unfinished one runs together with
it. -/
theorem patch?_unified_unfinished :
    unified "f.js" "a" "b\n"
        = Text.ofString "--- a/f.js\n+++ b/f.js\n@@ -1 +1 @@\n-a+b\n"
      ∧ patch? (unified "f.js" "a" "b\n") "a" ≠ some "b\n" := by
  decide +kernel

end Codemod.Diff
