/-
What turns one text into another, line by line.

A script is a list of segments: lines that both texts share, and lines
of the one in place of lines of the other. It is found by taking the
longest run of shared lines and looking for more of them on either side
of it.
-/
import Codemod.Text.Point

namespace Codemod.Diff

/-- A line with what ends it. -/
abbrev Line := Text

-- ================================================================ lines

/-- A point that ends a line. -/
def isLineEnd (p : Point) : Bool :=
  let n := p.code
  (0xA ≤ n && n ≤ 0xD) || (0x1C ≤ n && n ≤ 0x1E) || n == 0x85 || n == 0x2028 || n == 0x2029

/-- The lines of a text behind the start of a line, which is given in
reverse. -/
def linesFrom (start : Text) : Text → List Line
  | [] => if start.isEmpty then [] else [start.reverse]
  | p :: q :: t =>
    if p.is '\r' && q.is '\n' then (q :: p :: start).reverse :: linesFrom [] t
    else if isLineEnd p then (p :: start).reverse :: linesFrom [] (q :: t)
    else linesFrom (p :: start) (q :: t)
  | [p] => [(p :: start).reverse]

theorem linesFrom_of_not_isLineEnd {p : Point} {t start : Text} (h : isLineEnd p = false) :
    linesFrom start (p :: t) = linesFrom (p :: start) t := by
  have hcr : p.is '\r' = false := by
    rw [Point.is, beq_eq_false_iff_ne]
    rintro rfl
    cases h
  cases t with
  | nil => simp [linesFrom]
  | cons q t => rw [linesFrom]; simp [hcr, h]

/-- The lines of a text. -/
def lines (t : Text) : List Line := linesFrom [] t

-- ============================================================== matching

/-- A run of lines that two lists share: where it starts in each, and
how long it is. -/
structure Match where
  old : Nat
  new : Nat
  size : Nat

/-- How many lines two lists share at their start. -/
def sharedPrefix : List Line → List Line → Nat
  | a :: as, b :: bs => if a == b then sharedPrefix as bs + 1 else 0
  | _, _ => 0

/-- How long the runs are that end with a line and each line of a list.
`above` has the lengths for the line before, `corner` the one for the
line before and the place before. -/
def runLengths (usual : Line → Bool) (line : Line) : List Line → List Nat → Nat → List Nat
  | b :: bs, k :: ks, corner =>
    (if b == line && !usual b then corner + 1 else 0) :: runLengths usual line bs ks k
  | _, _, _ => []

/-- The longest run so far, when the runs that end with line `i` have
the given lengths from place `j` on. Of equally long runs the first is
kept. -/
def longer (i : Nat) : Nat → List Nat → Match → Match
  | _, [], best => best
  | j, k :: ks, best =>
    longer i (j + 1) ks (if best.size < k then ⟨i + 1 - k, j + 1 - k, k⟩ else best)

/-- The longest run among the lines from `i` on. -/
def longestFrom (usual : Line → Bool) (new : List Line) :
    Nat → List Line → List Nat → Match → Match
  | _, [], _, best => best
  | i, a :: as, above, best =>
    let row := runLengths usual a new above 0
    longestFrom usual new (i + 1) as row (longer i 0 row best)

/-- The run around a place: as far back as the lines are shared, and as
far on. -/
def widen (old new : List Line) (i j : Nat) : Match :=
  let back := sharedPrefix (old.take i).reverse (new.take j).reverse
  ⟨i - back, j - back, sharedPrefix (old.drop (i - back)) (new.drop (j - back))⟩

/-- The longest run of shared lines. Usual lines do not count at first,
but the run found is widened over them. -/
def longest (usual : Line → Bool) (old new : List Line) : Match :=
  let m := longestFrom usual new 0 old (new.map fun _ => 0) ⟨0, 0, 0⟩
  widen old new m.old m.new

-- ============================================================== scripts

/-- A part of a script. -/
inductive Segment where
  | same (lines : List Line)
  /-- Lines of the new text in place of lines of the old one. -/
  | change (old new : List Line)

namespace Segment

/-- The lines in the old text. -/
def old : Segment → List Line
  | .same ls => ls
  | .change o _ => o

/-- The lines in the new text. -/
def new : Segment → List Line
  | .same ls => ls
  | .change _ n => n

/-- The segment changes something. -/
def isChange : Segment → Bool
  | .same _ => false
  | .change _ _ => true

end Segment

/-- A script between lists of which the first is not longer than
`fuel`. -/
def segments (usual : Line → Bool) : Nat → List Line → List Line → List Segment
  | 0, old, new => if old.isEmpty && new.isEmpty then [] else [.change old new]
  | fuel + 1, old, new =>
    if old.isEmpty && new.isEmpty then []
    else
      let m := longest usual old new
      if m.size == 0 then [.change old new]
      else segments usual fuel (old.take m.old) (new.take m.new)
        ++ .same ((old.drop m.old).take m.size)
        :: segments usual fuel (old.drop (m.old + m.size)) (new.drop (m.new + m.size))

/-- A script in which neighbours that are the same are one. -/
def joinSame : List Segment → List Segment
  | [] => []
  | .change o n :: ss => .change o n :: joinSame ss
  | .same ls :: ss =>
    match joinSame ss with
    | .same more :: rest => .same (ls ++ more) :: rest
    | rest => .same ls :: rest

/-- The number of lines from which on usual lines are told apart. -/
def usualFrom : Nat := 200

/-- A line of a long list is usual if more than one line in a hundred is
equal to it. -/
def isUsual (ls : List Line) (l : Line) : Bool :=
  usualFrom ≤ ls.length && ls.length / 100 + 1 < ls.count l

/-- The script from one list of lines to another. -/
def script (old new : List Line) : List Segment :=
  let usual := new.eraseDups.filter (isUsual new)
  joinSame (segments usual.contains (old.length + 1) old new)

end Codemod.Diff
