/-
Lines of a text.

A closed line ends with a line end and has none before. The lines of a
text, one after the other, are the text, and all of them are closed save
perhaps the last (`lined_lines`). Conversely such lines are those of the
text that they make up, unless a line feed at the start of one joins the
carriage return in front of it (`lines_flatten`).
-/
import Codemod.Diff.Script

namespace Codemod.Diff

/-- The line has no line end. -/
def IsOpen (l : Line) : Prop := ∀ p ∈ l, isLineEnd p = false

instance (l : Line) : Decidable (IsOpen l) :=
  inferInstanceAs (Decidable (∀ p ∈ l, isLineEnd p = false))

/-- The line ends with a line end and has none before. -/
def IsClosed (l : Line) : Prop :=
  ∃ body, IsOpen body ∧ ((∃ e, isLineEnd e = true ∧ l = body ++ [e])
    ∨ l = body ++ [.scalar '\r', .scalar '\n'])

/-- Lines that are closed, save perhaps the last. -/
def Lined : List Line → Prop
  | [] => True
  | [l] => l ≠ [] ∧ (IsClosed l ∨ IsOpen l)
  | l :: m :: ls => IsClosed l ∧ Lined (m :: ls)

variable {p : Point} {t start : Text} {l : Line} {ls ms : List Line}

-- ============================================================ closed lines

theorem IsClosed.ne_nil (h : IsClosed l) : l ≠ [] := by
  obtain ⟨body, -, ⟨e, -, rfl⟩ | rfl⟩ := h
  · simp
  · simp

theorem Lined.ne_nil (h : Lined (l :: ls)) : l ≠ [] := by
  cases ls with
  | nil => exact h.1
  | cons m ls => exact h.1.ne_nil

theorem lined_append (h : ∀ l ∈ ls, IsClosed l) (hms : Lined ms) :
    Lined (ls ++ ms) := by
  induction ls with
  | nil => exact hms
  | cons l ls ih =>
      rw [List.forall_mem_cons] at h
      have hrest := ih h.2
      cases hls : ls ++ ms with
      | nil =>
          rw [List.cons_append, hls]
          exact ⟨h.1.ne_nil, Or.inl h.1⟩
      | cons m rest =>
          rw [List.cons_append, hls]
          rw [hls] at hrest
          exact ⟨h.1, hrest⟩

theorem Lined.right (h : Lined (ls ++ ms)) : Lined ms := by
  induction ls with
  | nil => exact h
  | cons l ls ih =>
      rw [List.cons_append] at h
      cases hls : ls ++ ms with
      | nil =>
          rw [(List.append_eq_nil_iff.1 hls).2]
          trivial
      | cons m rest =>
          rw [hls] at h ih
          exact ih h.2

/-- What stands in front of other lines is closed. -/
theorem Lined.closed (h : Lined (ls ++ ms)) (hne : ms ≠ []) :
    ∀ l ∈ ls, IsClosed l := by
  induction ls with
  | nil => simp
  | cons l ls ih =>
      rw [List.cons_append] at h
      obtain ⟨m, rest, hls⟩ := List.exists_cons_of_ne_nil
        (show ls ++ ms ≠ [] by simp [hne])
      rw [hls] at h ih
      rw [List.forall_mem_cons]
      exact ⟨h.1, ih h.2⟩

theorem Lined.left (h : Lined (ls ++ ms)) : Lined ls := by
  cases ms with
  | nil => rwa [List.append_nil] at h
  | cons m ms =>
      rw [← List.append_nil ls]
      exact lined_append (h.closed (List.cons_ne_nil m ms)) trivial

/-- A mark in front of a line. -/
theorem isOpen_cons (hp : isLineEnd p = false) (h : IsOpen l) : IsOpen (p :: l) := by
  rw [IsOpen, List.forall_mem_cons]
  exact ⟨hp, h⟩

theorem isClosed_cons (hp : isLineEnd p = false) (h : IsClosed l) :
    IsClosed (p :: l) := by
  obtain ⟨body, hbody, ⟨e, he, rfl⟩ | rfl⟩ := h
  · exact ⟨p :: body, isOpen_cons hp hbody, Or.inl ⟨e, he, rfl⟩⟩
  · exact ⟨p :: body, isOpen_cons hp hbody, Or.inr rfl⟩

theorem isOpen_append {k l : Line} (hk : IsOpen k) (hl : IsOpen l) : IsOpen (k ++ l) := by
  intro p hp
  exact (List.mem_append.1 hp).elim (hk p) (hl p)

theorem isClosed_append {k l : Line} (hk : IsOpen k) (hl : IsClosed l) :
    IsClosed (k ++ l) := by
  obtain ⟨body, hbody, ⟨e, he, rfl⟩ | rfl⟩ := hl
  · exact ⟨k ++ body, isOpen_append hk hbody, Or.inl ⟨e, he, by simp⟩⟩
  · exact ⟨k ++ body, isOpen_append hk hbody, Or.inr (by simp)⟩

theorem lined_append_cons {k : Line} (hk : IsOpen k) (h : Lined (l :: ls)) :
    Lined ((k ++ l) :: ls) := by
  cases ls with
  | nil =>
      obtain ⟨hne, hl⟩ := h
      exact ⟨by simp [hne], hl.imp (isClosed_append hk) (isOpen_append hk)⟩
  | cons m ls => exact ⟨isClosed_append hk h.1, h.2⟩

theorem lined_map_cons (hp : isLineEnd p = false) (h : Lined ls) :
    Lined (ls.map (p :: ·)) := by
  induction ls with
  | nil => trivial
  | cons l ls ih =>
      cases ls with
      | nil =>
          obtain ⟨-, hl⟩ := h
          exact ⟨List.cons_ne_nil p l,
            hl.imp (isClosed_cons hp) (isOpen_cons hp)⟩
      | cons m ls => exact ⟨isClosed_cons hp h.1, ih h.2⟩

-- ================================================================ reading

theorem linesFrom_of_isOpen {body : Line} (h : IsOpen body) :
    linesFrom start (body ++ t) = linesFrom (body.reverse ++ start) t := by
  induction body generalizing start with
  | nil => rfl
  | cons p body ih =>
      rw [IsOpen, List.forall_mem_cons] at h
      rw [List.cons_append, linesFrom_of_not_isLineEnd h.1, ih h.2]
      simp

theorem linesFrom_of_isLineEnd (h : isLineEnd p = true)
    (ht : t.head? ≠ some (.scalar '\n')) :
    linesFrom start (p :: t) = (p :: start).reverse :: linesFrom [] t := by
  cases t with
  | nil => rfl
  | cons q t =>
      have hq : q.is '\n' = false := by
        rw [Point.is, beq_eq_false_iff_ne]
        rintro rfl
        exact ht rfl
      rw [linesFrom]
      simp [hq, h]

/-- A closed line is read as a line. -/
theorem linesFrom_of_isClosed (h : IsClosed l)
    (ht : t.head? ≠ some (.scalar '\n')) :
    linesFrom start (l ++ t) = (start.reverse ++ l) :: linesFrom [] t := by
  obtain ⟨body, hbody, ⟨e, he, rfl⟩ | rfl⟩ := h
  · rw [List.append_assoc, linesFrom_of_isOpen hbody, List.singleton_append,
      linesFrom_of_isLineEnd he ht]
    simp
  · rw [List.append_assoc, linesFrom_of_isOpen hbody]
    change linesFrom _ (Point.scalar '\r' :: Point.scalar '\n' :: t) = _
    rw [linesFrom]
    simp [Point.is]

theorem lines_flatten (h : Lined ls)
    (hstart : ∀ l ∈ ls, l.head? ≠ some (.scalar '\n')) :
    lines ls.flatten = ls := by
  induction ls with
  | nil => rfl
  | cons l ls ih =>
      rw [List.forall_mem_cons] at hstart
      cases ls with
      | nil =>
          obtain ⟨hne, hl | hl⟩ := h
          · rw [List.flatten_cons, lines, linesFrom_of_isClosed hl (by simp)]
            rfl
          · rw [List.flatten_cons, lines, linesFrom_of_isOpen hl]
            simp [linesFrom, hne]
      | cons m ls =>
          rw [List.flatten_cons, lines, linesFrom_of_isClosed h.1]
          · exact congrArg (l :: ·) (ih h.2 hstart.2)
          · obtain ⟨p, m, rfl⟩ := List.exists_cons_of_ne_nil h.2.ne_nil
            exact hstart.2 (p :: m) List.mem_cons_self

-- ================================================================= lines

theorem lined_cons (h : IsClosed l) (hls : Lined ls) : Lined (l :: ls) :=
  have hsingle : ∀ k ∈ [l], IsClosed k := by simpa using h
  lined_append hsingle hls

theorem isClosed_reverse_cons (hstart : IsOpen start) (hp : isLineEnd p = true) :
    IsClosed (p :: start).reverse :=
  ⟨start.reverse, fun q hq => hstart q (List.mem_reverse.1 hq),
    Or.inl ⟨p, hp, List.reverse_cons⟩⟩

theorem lined_linesFrom (hstart : IsOpen start) : Lined (linesFrom start t) := by
  have hopen : ∀ l : Line, IsOpen l → IsOpen l.reverse := fun l hl p hp =>
    hl p (List.mem_reverse.1 hp)
  fun_induction linesFrom start t with
  | case1 => trivial
  | case2 start hne =>
      exact ⟨by simpa using hne, Or.inr (hopen start hstart)⟩
  | case3 start p q t hcrlf ih =>
      simp only [Point.is, Bool.and_eq_true, beq_iff_eq] at hcrlf
      obtain ⟨rfl, rfl⟩ := hcrlf
      refine lined_cons ⟨start.reverse, hopen start hstart, Or.inr ?_⟩
        (ih fun _ h => by cases h)
      simp
  | case4 start p q t _ hp ih =>
      exact lined_cons (isClosed_reverse_cons hstart hp)
        (ih fun _ h => by cases h)
  | case5 start p q t _ hp ih =>
      exact ih (isOpen_cons (by simpa using hp) hstart)
  | case6 start p =>
      refine ⟨by simp, ?_⟩
      cases hp : isLineEnd p with
      | true => exact Or.inl (isClosed_reverse_cons hstart hp)
      | false => exact Or.inr (hopen _ (isOpen_cons hp hstart))

theorem flatten_linesFrom : (linesFrom start t).flatten = start.reverse ++ t := by
  fun_induction linesFrom start t with
  | case1 start hnil => simp_all
  | case2 start => simp
  | case3 start p q t _ ih => simp [ih]
  | case4 start p q t _ _ ih => simp [ih]
  | case5 start p q t _ _ ih => simp [ih]
  | case6 start p => simp

/-- The lines of a text are closed, save perhaps the last. -/
theorem lined_lines (t : Text) : Lined (lines t) :=
  lined_linesFrom fun _ h => by cases h

/-- The lines of a text make up the text. -/
theorem flatten_lines (t : Text) : (lines t).flatten = t :=
  flatten_linesFrom

theorem lines_eq_nil_iff : lines t = [] ↔ t = [] := by
  constructor
  · intro h
    rw [← flatten_lines t, h]
    rfl
  · rintro rfl
    rfl

end Codemod.Diff
