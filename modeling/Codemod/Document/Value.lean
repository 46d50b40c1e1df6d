/-
Documents: the values that configuration files hold.

A mapping keeps its entries in order, each key once; putting a key that
is already there changes its value in place.
-/
import Codemod.Text.Quoted

namespace Codemod

/-- A value of a configuration file. -/
inductive Value where
  | null
  | bool (b : Bool)
  | int (n : Int)
  /-- A scalar that is neither a whole number nor a text, by its
  spelling. -/
  | other (spelling : String)
  | text (t : Text)
  | list (items : List Value)
  | map (entries : List (String × Value))
deriving Inhabited

namespace Value

/-- The text of a string. -/
def ofString (s : String) : Value := .text (Text.ofString s)

/-- A list of strings. -/
def ofStrings (ss : List String) : Value := .list (ss.map ofString)

-- ============================================================= mappings

/-- The entries with one more, in the place of one with the same key. -/
def put (k : String) (v : Value) : List (String × Value) → List (String × Value)
  | [] => [(k, v)]
  | (l, u) :: es => if l == k then (k, v) :: es else (l, u) :: put k v es

/-- The value of a key among entries. -/
def field? (k : String) (es : List (String × Value)) : Option Value := es.lookup k

/-- The entries of a mapping. -/
def entries? : Value → Option (List (String × Value))
  | .map es => some es
  | _ => none

mutual

/-- The mapping `base` with the entries of `v` over it. Where both hold
a mapping under one key, the two are merged; otherwise the value of `v`
wins. -/
def merge (base : List (String × Value)) : Value → List (String × Value)
  | .map es => mergeEntries base es
  | .null => base
  | .bool _ => base
  | .int _ => base
  | .other _ => base
  | .text _ => base
  | .list _ => base

/-- The entries `base` with further entries over them. -/
def mergeEntries (base : List (String × Value)) :
    List (String × Value) → List (String × Value)
  | [] => base
  | (k, v) :: es => mergeEntries (put k (mergeValue (field? k base) v) base) es

/-- The value of a key after merging. -/
def mergeValue (old : Option Value) : Value → Value
  | .map es =>
    match old with
    | some (.map base) => .map (mergeEntries base es)
    | _ => .map es
  | .null => .null
  | .bool b => .bool b
  | .int n => .int n
  | .other s => .other s
  | .text t => .text t
  | .list vs => .list vs

end

-- ============================================================ inspection

/-- The value is neither null, false, zero nor empty. -/
def isTruthy : Value → Bool
  | .null => false
  | .bool b => b
  | .int n => n != 0
  | .other _ => true
  | .text t => !t.isEmpty
  | .list vs => !vs.isEmpty
  | .map es => !es.isEmpty

/-- The whole number that a value is; true and false count as one and
zero. -/
def int? : Value → Option Int
  | .int n => some n
  | .bool b => some (if b then 1 else 0)
  | _ => none

/-- The greatest whole number that a number does not fall below. -/
def floor? : Value → Option Int
  | .int n => some n
  | .bool b => some (if b then 1 else 0)
  | .other s =>
    let negative := s.startsWith "-"
    let digits := if negative then s.toList.drop 1 else s.toList
    match digits.span Char.isDigit with
    | ([], _) => none
    | (whole, rest) =>
      let n := Int.ofNat (whole.foldl (fun k c => k * 10 + (c.toNat - '0'.toNat)) 0)
      match rest with
      | '.' :: part =>
        if !part.all Char.isDigit then none
        else if negative then some (if part.all (· == '0') then -n else -n - 1)
        else some n
      | _ => none
  | _ => none

/-- The text that a value is. -/
def text? : Value → Option Text
  | .text t => some t
  | _ => none

/-- The parts of a value that has parts: the items of a list, the keys
of a mapping, the points of a text. -/
def parts? : Value → Option (List Value)
  | .list vs => some vs
  | .map es => some (es.map fun (k, _) => ofString k)
  | .text t => some (t.map fun p => .text [p])
  | _ => none

/-- The number of parts of a value that has parts. -/
def size? (v : Value) : Option Nat := v.parts?.map List.length

/-- The parts of a value as texts, if they are. -/
def texts? (v : Value) : Option (List Text) := v.parts?.bind (·.mapM text?)

/-- A value that may stand in a set. -/
def isSimple : Value → Bool
  | .list _ => false
  | .map _ => false
  | _ => true

mutual

/-- The same value; entries are compared key by key. -/
def same : Value → Value → Bool
  | .null, .null => true
  | .bool a, .bool b => a == b
  | .int a, .int b => a == b
  | .other a, .other b => a == b
  | .text a, .text b => a == b
  | .list a, .list b => sameItems a b
  | .map a, .map b => a.length == b.length && sameEntries a b
  | _, _ => false

/-- The same items in the same order. -/
def sameItems : List Value → List Value → Bool
  | [], [] => true
  | a :: as, b :: bs => same a b && sameItems as bs
  | _, _ => false

/-- Every entry has its equal among the others. -/
def sameEntries : List (String × Value) → List (String × Value) → Bool
  | [], _ => true
  | (k, a) :: es, others =>
    (match field? k others with
      | some b => same a b
      | none => false)
    && sameEntries es others

end

section Same

variable {w : Value} {vs ws : List Value}

theorem eq_text_of_same {t : Text} (h : same (.text t) w = true) : w = .text t := by
  cases w with
  | text u =>
      rw [same, beq_iff_eq] at h
      rw [h]
  | _ => simp [same] at h

theorem sameItems_length (h : sameItems vs ws = true) : vs.length = ws.length := by
  induction vs generalizing ws with
  | nil =>
      cases ws with
      | nil => rfl
      | cons w ws => simp [sameItems] at h
  | cons v vs ih =>
      cases ws with
      | nil => simp [sameItems] at h
      | cons w ws =>
          rw [sameItems, Bool.and_eq_true] at h
          rw [List.length_cons, List.length_cons, ih h.2]

end Same

-- ============================================================== wording

mutual

/-- How a value is shown inside another one. -/
def shown : Value → Text
  | .null => "None"
  | .bool b => if b then "True" else "False"
  | .int n => toString n
  | .other s => s
  | .text t => Text.quoted t
  | .list vs => Text.ofString "[" ++ (shownItems vs ++ Text.ofString "]")
  | .map es => Text.ofString "\x7b" ++ (shownEntries es ++ Text.ofString "\x7d")

/-- How the items of a list are shown. -/
def shownItems : List Value → Text
  | [] => []
  | [v] => shown v
  | v :: w :: vs => shown v ++ (Text.ofString ", " ++ shownItems (w :: vs))

/-- How the entries of a mapping are shown. -/
def shownEntries : List (String × Value) → Text
  | [] => []
  | [(k, v)] => Text.quoted (Text.ofString k) ++ (Text.ofString ": " ++ shown v)
  | (k, v) :: e :: es =>
    Text.quoted (Text.ofString k)
      ++ (Text.ofString ": " ++ (shown v ++ (Text.ofString ", " ++ shownEntries (e :: es))))

end

/-- How a value is shown on its own: a text as it is. -/
def spoken : Value → Text
  | .text t => t
  | v => v.shown

end Value

end Codemod
