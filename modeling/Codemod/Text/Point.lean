/-
Text as a list of code points.

Source files hold Unicode scalar values only, but a literal such as
`"\ud83d"` denotes one half of a surrogate pair, and its decoded value
may be written back into a tree. A text is therefore a list of points,
each a scalar value or a surrogate that stands alone; the texts that
can be stored in a file are exactly the images of strings
(`Text.toString?_eq_some_iff`).
-/
namespace Codemod

/-- One position of a text. -/
inductive Point where
  /-- A Unicode scalar value. -/
  | scalar (c : Char)
  /-- The code point `0xD800 + n`: half of a surrogate pair, alone. -/
  | surrogate (n : Fin 2048)
deriving DecidableEq, Inhabited

/-- The code point's number. -/
def Point.code : Point → Nat
  | .scalar c => c.toNat
  | .surrogate n => 0xD800 + n.val

/-- The point of a given number; none above `0x10FFFF`. -/
def Point.ofCode? (n : Nat) : Option Point :=
  if h : n.isValidChar then some (.scalar (Char.ofNatAux n h))
  else if h : n - 0xD800 < 2048 then some (.surrogate ⟨n - 0xD800, h⟩)
  else none

/-- The point is the given character. -/
def Point.is (p : Point) (c : Char) : Bool := p == .scalar c

/-- A sequence of code points. -/
abbrev Text := List Point

namespace Text

/-- The text of a list of characters. -/
def ofChars (cs : List Char) : Text := cs.map .scalar

/-- The text of a string. -/
def ofString (s : String) : Text := ofChars s.toList

instance : Coe String Text := ⟨ofString⟩

/-- The characters of a text, when no surrogate stands alone in it. -/
def toChars? : Text → Option (List Char)
  | [] => some []
  | .scalar c :: t => (toChars? t).map (c :: ·)
  | .surrogate _ :: _ => none

/-- The string a text can be stored as. -/
def toString? (t : Text) : Option String := (toChars? t).map String.ofList

/-- The text as a string, a surrogate standing alone shown as the
replacement character. -/
def display (t : Text) : String :=
  String.ofList (t.map fun
    | .scalar c => c
    | .surrogate _ => Char.ofNat 0xFFFD)

/-- The text is one of the given words. -/
def isOneOf (t : Text) (words : List String) : Bool :=
  words.any fun w => ofString w == t

/-- The number of UTF-16 units of a string. -/
def utf16Length (s : String) : Nat :=
  s.toList.foldl (fun n c => n + if c.toNat < 0x10000 then 1 else 2) 0

/-- The texts between the occurrences of a point, the first up to the
first occurrence. -/
def splitAtPoint (p : Point) : Text → List Text
  | [] => [[]]
  | q :: t =>
    if q = p then [] :: splitAtPoint p t
    else match splitAtPoint p t with
      | [] => [[q]]
      | w :: ws => (q :: w) :: ws

/-- The texts joined with a separator between neighbours. -/
def joinWith (sep : Text) : List Text → Text
  | [] => []
  | [t] => t
  | t :: u :: ts => t ++ sep ++ joinWith sep (u :: ts)

/-- The first text does not come after the second, point by point. -/
def notAfter : Text → Text → Bool
  | [], _ => true
  | _ :: _, [] => false
  | p :: t, q :: u => p.code < q.code || (p.code == q.code && notAfter t u)

/-- The texts in order, each once. -/
def sortedOnce (ts : List Text) : List Text := (ts.mergeSort notAfter).eraseReps

-- ===================================================== strings as texts

theorem toChars?_ofChars (cs : List Char) : toChars? (ofChars cs) = some cs := by
  induction cs with
  | nil => rfl
  | cons c cs ih => simp_all [ofChars, toChars?]

theorem eq_ofChars_of_toChars? {t : Text} {cs : List Char}
    (h : toChars? t = some cs) : t = ofChars cs := by
  induction t generalizing cs with
  | nil => simp_all [toChars?, ofChars]
  | cons p t ih =>
    cases p with
    | surrogate n => simp [toChars?] at h
    | scalar c =>
      obtain ⟨ds, hd, rfl⟩ := Option.map_eq_some_iff.1 h
      simp [ih hd, ofChars]

/-- The texts that can be stored are the texts of strings. -/
theorem toString?_eq_some_iff {t : Text} {s : String} :
    toString? t = some s ↔ t = ofString s := by
  constructor
  · intro h
    obtain ⟨cs, hc, rfl⟩ := Option.map_eq_some_iff.1 h
    rw [eq_ofChars_of_toChars? hc, ofString, String.toList_ofList]
  · rintro rfl
    simp [toString?, ofString, toChars?_ofChars]

@[simp] theorem ofChars_append (a b : List Char) :
    ofChars (a ++ b) = ofChars a ++ ofChars b := by
  simp [ofChars]

end Text

end Codemod
