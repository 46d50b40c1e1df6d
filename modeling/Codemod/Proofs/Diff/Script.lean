/-
What a script says.

The segments of a script, read on one side, are the lines of the one
text, and on the other side those of the other (`isScript_script`). That
does not depend on how the shared runs are found: a run that has been
widened is shared whatever was widened.

How they are found does matter for equal lists. There the first of the
longest runs lies at the same place in both, since a run between two
places also lies at the first of them alone, and is found there no later
(`runAt_le_diagonal`). So the whole list is one run, and nothing is
changed (`script_self`).
-/
import Mathlib.Data.List.Chain
import Codemod.Proofs.Diff.Line

namespace Codemod.Diff

/-- The segments lead from one list of lines to another. -/
structure IsScript (old new : List Line) (ss : List Segment) : Prop where
  old : ss.flatMap Segment.old = old
  new : ss.flatMap Segment.new = new
  /-- No segment is empty. -/
  nonempty : ∀ s ∈ ss, s.old ≠ [] ∨ s.new ≠ []
  /-- Between two changes there are lines that are the same. -/
  apart : ss.IsChain fun a b => a.isChange = true → b.isChange = false

variable {usual : Line → Bool} {old new : List Line}

-- ============================================================= shared runs

theorem take_sharedPrefix (old new : List Line) :
    old.take (sharedPrefix old new) = new.take (sharedPrefix old new)
      ∧ sharedPrefix old new ≤ old.length := by
  fun_induction sharedPrefix old new with
  | case1 a as b bs h ih =>
      obtain rfl := eq_of_beq h
      simpa using ih
  | case2 => simp
  | case3 => simp

/-- The run found is shared. -/
theorem longest_shared (usual : Line → Bool) (old new : List Line) :
    let m := longest usual old new
    (old.drop m.old).take m.size = (new.drop m.new).take m.size
      ∧ m.size ≤ (old.drop m.old).length :=
  take_sharedPrefix _ _

theorem append_drop_take (ls : List Line) (i k : Nat) :
    ls.take i ++ ((ls.drop i).take k ++ ls.drop (i + k)) = ls := by
  rw [← List.drop_drop, List.take_append_drop, List.take_append_drop]

-- ================================================================= scripts

theorem isScript_change (h : old ≠ [] ∨ new ≠ []) :
    IsScript old new [.change old new] where
  old := by simp [Segment.old]
  new := by simp [Segment.new]
  nonempty := by simpa [Segment.old, Segment.new] using h
  apart := .singleton _

theorem isScript_nil (h : (old.isEmpty && new.isEmpty) = true) :
    IsScript old new [] := by
  rw [Bool.and_eq_true, List.isEmpty_iff, List.isEmpty_iff] at h
  obtain ⟨rfl, rfl⟩ := h
  exact ⟨rfl, rfl, by simp, .nil⟩

/-- Scripts on either side of lines that are the same. -/
theorem IsScript.around {old' new' ls : List Line} {ss ss' : List Segment}
    (h : IsScript old new ss) (hne : ls ≠ []) (h' : IsScript old' new' ss') :
    IsScript (old ++ (ls ++ old')) (new ++ (ls ++ new'))
      (ss ++ .same ls :: ss') where
  old := by simp [h.old, h'.old, Segment.old]
  new := by simp [h.new, h'.new, Segment.new]
  nonempty := by
    intro s hs
    rcases List.mem_append.1 hs with hs | hs
    · exact h.nonempty s hs
    · rcases List.mem_cons.1 hs with rfl | hs
      · exact Or.inl hne
      · exact h'.nonempty s hs
  apart := by
    refine List.isChain_append.2 ⟨h.apart, ?_, ?_⟩
    · exact List.isChain_cons.2 ⟨fun _ _ hc => (by cases hc), h'.apart⟩
    · rintro a - b hb -
      obtain rfl : Segment.same ls = b := by simpa using hb
      rfl

theorem isScript_segments (fuel : Nat) (old new : List Line) :
    IsScript old new (segments usual fuel old new) := by
  induction fuel generalizing old new with
  | zero =>
      rw [segments]
      split
      · next h => exact isScript_nil h
      · next h => exact isScript_change (by simpa [imp_iff_not_or] using h)
  | succ fuel ih =>
      rw [segments]
      split
      · next h => exact isScript_nil h
      · next h =>
          simp only
          split
          · exact isScript_change (by simpa [imp_iff_not_or] using h)
          · next hsize =>
              generalize hm : longest usual old new = m at hsize
              obtain ⟨hshared, hlen⟩ := longest_shared usual old new
              rw [hm] at hshared hlen
              have hne : (old.drop m.old).take m.size ≠ [] := by
                intro hnil
                have := congrArg List.length hnil
                simp only [List.length_take, List.length_nil] at this
                simp at hsize
                omega
              have h := (ih (old.take m.old) (new.take m.new)).around hne
                (ih (old.drop (m.old + m.size)) (new.drop (m.new + m.size)))
              rwa [append_drop_take, hshared, append_drop_take, ← hshared] at h

theorem joinSame_cons_same (ls : List Line) (ss : List Segment) :
    (∃ more rest, joinSame ss = .same more :: rest
        ∧ joinSame (.same ls :: ss) = .same (ls ++ more) :: rest)
      ∨ joinSame (.same ls :: ss) = .same ls :: joinSame ss := by
  rw [joinSame]
  split
  · next more rest h => exact Or.inl ⟨more, rest, h, rfl⟩
  · exact Or.inr rfl

theorem isChange_head_joinSame (ss : List Segment) :
    (joinSame ss).head?.map Segment.isChange = ss.head?.map Segment.isChange := by
  match ss with
  | [] => rfl
  | .change o n :: ss => rfl
  | .same ls :: ss =>
    rcases joinSame_cons_same ls ss with ⟨more, rest, -, h⟩ | h
    · rw [h]
      rfl
    · rw [h]
      rfl

theorem isScript_cons {s : Segment} {ss : List Segment} :
    IsScript old new (s :: ss) ↔ (s.old ≠ [] ∨ s.new ≠ [])
      ∧ (s.isChange = true → ss.head?.map Segment.isChange ≠ some true)
      ∧ ∃ old' new', old = s.old ++ old' ∧ new = s.new ++ new'
        ∧ IsScript old' new' ss := by
  constructor
  · rintro ⟨rfl, rfl, hne, hapart⟩
    rw [List.forall_mem_cons] at hne
    obtain ⟨hhead, hrest⟩ := List.isChain_cons.1 hapart
    refine ⟨hne.1, fun hs hchange => ?_, _, _, rfl, rfl, rfl, rfl, hne.2, hrest⟩
    obtain ⟨r, hr, hchange⟩ := Option.map_eq_some_iff.1 hchange
    rw [hhead r hr hs] at hchange
    cases hchange
  · rintro ⟨hne, hhead, old', new', rfl, rfl, h⟩
    refine ⟨by simp [h.old], by simp [h.new], ?_, ?_⟩
    · rw [List.forall_mem_cons]
      exact ⟨hne, h.nonempty⟩
    · refine List.isChain_cons.2 ⟨fun r hr hs => ?_, h.apart⟩
      rw [Bool.eq_false_iff]
      intro hchange
      exact hhead hs (by rw [hr, Option.map_some, hchange])

theorem isScript_joinSame {ss : List Segment} (h : IsScript old new ss) :
    IsScript old new (joinSame ss) := by
  induction ss generalizing old new with
  | nil => exact h
  | cons s ss ih =>
      obtain ⟨hne, hhead, old', new', rfl, rfl, hrest⟩ := isScript_cons.1 h
      have hjoin := ih hrest
      cases s with
      | change o n =>
          rw [joinSame]
          refine isScript_cons.2 ⟨hne, fun _ => ?_, _, _, rfl, rfl, hjoin⟩
          rw [isChange_head_joinSame]
          exact hhead rfl
      | same ls =>
          rcases joinSame_cons_same ls ss with
            ⟨more, rest, hmore, h⟩ | h
          · rw [h]
            rw [hmore] at hjoin
            obtain ⟨-, -, o, n, rfl, rfl, hjoined⟩ := isScript_cons.1 hjoin
            refine isScript_cons.2 ⟨?_, fun hc => (by cases hc), o, n, ?_, ?_, hjoined⟩
            · simp only [Segment.old, Segment.new, or_self] at hne ⊢
              simp [hne]
            · simp [Segment.old]
            · simp [Segment.new]
          · rw [h]
            exact isScript_cons.2
              ⟨hne, fun hc => (by cases hc), _, _, rfl, rfl, hjoin⟩

/-- A script leads from the one list of lines to the other. -/
theorem isScript_script (old new : List Line) :
    IsScript old new (script old new) :=
  isScript_joinSame (isScript_segments _ old new)

-- ============================================================= equal lists

/-- How long the run is that ends in front of two places of a list. -/
def runAt (usual : Line → Bool) (ls : List Line) : Nat → Nat → Nat
  | i + 1, j + 1 =>
    match ls[i]?, ls[j]? with
    | some a, some b => if b == a && !usual b then runAt usual ls i j + 1 else 0
    | _, _ => 0
  | _, _ => 0

variable {ls : List Line}

theorem runAt_comm (i j : Nat) : runAt usual ls i j = runAt usual ls j i := by
  induction i generalizing j with
  | zero => cases j <;> rfl
  | succ i ih =>
      cases j with
      | zero => rfl
      | succ j =>
          rw [runAt, runAt, ih j]
          cases ls[i]? with
          | none => cases ls[j]? <;> rfl
          | some a =>
              cases ls[j]? with
              | none => rfl
              | some b =>
                  cases hab : b == a with
                  | true =>
                      obtain rfl := eq_of_beq hab
                      simp
                  | false =>
                      have : (a == b) = false := by
                        rw [beq_eq_false_iff_ne] at hab ⊢
                        exact Ne.symm hab
                      simp [hab, this]

/-- A run between two places is no longer than the one at the first of
them alone. -/
theorem runAt_le_diagonal (i j : Nat) :
    runAt usual ls i j ≤ runAt usual ls i i := by
  induction i generalizing j with
  | zero => cases j <;> exact Nat.le_refl _
  | succ i ih =>
      cases j with
      | zero => exact Nat.zero_le _
      | succ j =>
          rw [runAt, runAt]
          cases ls[i]? with
          | none => exact Nat.le_refl _
          | some a =>
              cases ls[j]? with
              | none => exact Nat.zero_le _
              | some b =>
                  simp only
                  split
                  · next h =>
                      rw [Bool.and_eq_true] at h
                      obtain ⟨hab, hb⟩ := h
                      obtain rfl := eq_of_beq hab
                      simp only [beq_self_eq_true, hb, Bool.and_self, if_true]
                      exact Nat.succ_le_succ (ih j)
                  · exact Nat.zero_le _

/-- The runs that end in front of place `i` and each place from `j + 1`
on. -/
def runRow (usual : Line → Bool) (ls : List Line) (i j k : Nat) : List Nat :=
  (List.range' j k).map fun x => runAt usual ls i (x + 1)

theorem runLengths_eq (usual : Line → Bool) {a : Line} {i : Nat} (hi : ls[i]? = some a) (j : Nat)
    (bs : List Line) (hbs : ls.drop j = bs) :
    runLengths usual a bs (runRow usual ls i j bs.length) (runAt usual ls i j)
      = runRow usual ls (i + 1) j bs.length := by
  induction bs generalizing j with
  | nil => rfl
  | cons b bs ih =>
      have hj : ls[j]? = some b := by
        rw [← List.head?_drop, hbs]
        rfl
      have hrest : ls.drop (j + 1) = bs := by
        rw [← List.tail_drop, hbs]
        rfl
      simp only [runRow, List.length_cons, List.range'_succ, List.map_cons,
        runLengths]
      refine congrArg₂ (· :: ·) ?_ (ih (j + 1) hrest)
      rw [runAt, hi, hj]

/-- The run starts at the same place on both sides. -/
structure Match.OnDiagonal (m : Match) (ls : List Line) : Prop where
  same : m.old = m.new
  le : m.old ≤ ls.length

/-- Scanning the runs that end in one place of a list: if no run between
that place and an earlier one is longer than the best so far, the best
stays on the diagonal. -/
theorem longer_diagonal {i : Nat} (r : Nat → Nat) (hmax : ∀ x, r x ≤ r i)
    (j k : Nat) (hk : j + k ≤ ls.length) (best : Match)
    (hbest : best.OnDiagonal ls) (hearlier : ∀ x < i, r x ≤ best.size)
    (hlater : i < j → r i ≤ best.size) :
    let m := longer i j ((List.range' j k).map r) best
    m.OnDiagonal ls ∧ best.size ≤ m.size
      ∧ ∀ x, j ≤ x → x < j + k → r x ≤ m.size := by
  induction k generalizing j best with
  | zero => exact ⟨hbest, Nat.le_refl _, fun x h1 h2 => by omega⟩
  | succ k ih =>
      simp only [List.range'_succ, List.map_cons, longer]
      split
      · next hlt =>
          -- a longer run can only be the one at the place itself
          obtain rfl : j = i := by
            rcases Nat.lt_trichotomy j i with h | h | h
            · have := hearlier j h
              omega
            · exact h
            · have := hlater h
              have := hmax j
              omega
          obtain ⟨h1, h2, -⟩ := ih (j + 1) (by omega)
            ⟨j + 1 - r j, j + 1 - r j, r j⟩ ⟨rfl, by dsimp only; omega⟩
            (fun x _ => hmax x) (fun _ => Nat.le_refl _)
          exact ⟨h1, Nat.le_trans (Nat.le_of_lt hlt) h2,
            fun x _ _ => Nat.le_trans (hmax x) h2⟩
      · next hle =>
          obtain ⟨h1, h2, h3⟩ := ih (j + 1) (by omega) best hbest hearlier (by
            intro h
            rcases Nat.lt_or_eq_of_le (Nat.lt_succ_iff.1 h) with h | rfl
            · exact hlater h
            · omega)
          refine ⟨h1, h2, fun x hx hx' => ?_⟩
          rcases Nat.lt_or_eq_of_le hx with hx | rfl
          · exact h3 x hx (by omega)
          · omega

theorem longestFrom_diagonal (usual : Line → Bool) (i : Nat) (as : List Line) (has : ls.drop i = as)
    (best : Match) (hbest : best.OnDiagonal ls)
    (hrows : ∀ x < i, ∀ y < ls.length, runAt usual ls (x + 1) (y + 1) ≤ best.size) :
    (longestFrom usual ls i as (runRow usual ls i 0 ls.length) best).OnDiagonal
      ls := by
  induction as generalizing i best with
  | nil => exact hbest
  | cons a as ih =>
      have hi : ls[i]? = some a := by
        rw [← List.head?_drop, has]
        rfl
      have hlt : i < ls.length := (List.getElem?_eq_some_iff.1 hi).1
      have hrest : ls.drop (i + 1) = as := by
        rw [← List.tail_drop, has]
        rfl
      have hzero : runAt usual ls i 0 = 0 := by cases i <;> rfl
      have hrow := runLengths_eq usual hi 0 ls rfl
      rw [hzero] at hrow
      simp only [longestFrom, hrow]
      obtain ⟨h1, h2, h3⟩ := longer_diagonal
        (fun y => runAt usual ls (i + 1) (y + 1))
        (fun y => runAt_le_diagonal (i + 1) (y + 1)) 0 ls.length (by omega) best
        hbest (fun y hy => by rw [runAt_comm]; exact hrows y hy i hlt)
        (fun h => by omega)
      refine ih (i + 1) hrest _ h1 fun x hx y hy => ?_
      rcases Nat.lt_or_eq_of_le (Nat.lt_succ_iff.1 hx) with hx | rfl
      · exact Nat.le_trans (hrows x hx y hy) h2
      · exact h3 y (Nat.zero_le y) (by omega)

theorem sharedPrefix_self (ls : List Line) : sharedPrefix ls ls = ls.length := by
  induction ls with
  | nil => rfl
  | cons l ls ih => simp [sharedPrefix, ih]

theorem widen_self {i : Nat} (hi : i ≤ ls.length) :
    widen ls ls i i = ⟨0, 0, ls.length⟩ := by
  simp only [widen, sharedPrefix_self, List.length_reverse, List.length_take,
    Nat.min_eq_left hi, Nat.sub_self, List.drop_zero]

/-- Equal lists share all there is. -/
theorem longest_self (ls : List Line) :
    longest usual ls ls = ⟨0, 0, ls.length⟩ := by
  have hzero : (ls.map fun _ => 0) = runRow usual ls 0 0 ls.length := by
    have : ∀ x, runAt usual ls 0 (x + 1) = 0 := fun x => rfl
    simp [runRow, this]
  have h := longestFrom_diagonal usual 0 ls rfl ⟨0, 0, 0⟩
    ⟨rfl, Nat.zero_le _⟩ (fun x hx => by omega)
  rw [longest, hzero, ← h.same, widen_self h.le]

/-- Nothing is changed between equal lists. -/
theorem script_self (ls : List Line) :
    script ls ls = [] ∨ script ls ls = [.same ls] := by
  cases ls with
  | nil => exact Or.inl rfl
  | cons l ls =>
      right
      simp [script, segments, longest_self, joinSame]

end Codemod.Diff
