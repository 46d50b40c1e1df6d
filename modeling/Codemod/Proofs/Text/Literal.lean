/-
What a literal denotes.

The body of a literal is a row of points and escapes, and the grammar of
escapes says what each of them means (`Escape`, `Reading`). The value is
a row of UTF-16 units (`value?`): an octal escape and a number above the
last code point give none, neither does a line that ends inside a string,
and every line end in a template is one line feed.

The decoder reads the same parts (`unescapeFrom_of_reading`). It refuses
bodies by a search of its own for `\0` before a digit, and the search
takes no notice of where an escape starts: it also finds an escaped
backslash before these two digits (`hasOctalZero_of_reading`).
-/
import Mathlib.Tactic.Common
import Codemod.Text.Escape

namespace Codemod

-- ================================================================= units

/-- The UTF-16 units of a point. -/
def Point.units (p : Point) : List Nat :=
  if p.code < 0x10000 then [p.code]
  else [0xD800 + (p.code - 0x10000) / 0x400, 0xDC00 + (p.code - 0x10000) % 0x400]

/-- The UTF-16 units of a text. -/
def Text.units (t : Text) : List Nat := t.flatMap Point.units

theorem Text.units_append (t u : Text) : (t ++ u).units = t.units ++ u.units :=
  List.flatMap_append

theorem Point.ofCode?_code (p : Point) : Point.ofCode? p.code = some p := by
  cases p with
  | scalar c =>
      have hc : c.toNat.isValidChar := c.valid
      have hback := Char.ofNat_toNat c
      rw [Char.ofNat, dif_pos hc] at hback
      rw [Point.ofCode?, Point.code, dif_pos hc]
      exact congrArg (some ∘ Point.scalar) hback
  | surrogate n =>
      have hn := n.isLt
      rw [Point.ofCode?, dif_neg, dif_pos]
      · simp [Point.code]
      · simp only [Point.code]
        omega
      · simp only [Point.code, Nat.isValidChar]
        omega

theorem Point.ofCode?_eq_none {n : Nat} (h : 0x10FFFF < n) : Point.ofCode? n = none := by
  rw [Point.ofCode?, dif_neg, dif_neg]
  · omega
  · rw [Nat.isValidChar]
    omega

namespace Literal

open Text

-- =============================================================== escapes

/-- What an escape means. -/
inductive Meaning where
  | text (t : Text)
  /-- An octal escape, `\8` or `\9`. -/
  | legacy
  /-- A number above the last code point. -/
  | beyond (n : Nat)
deriving DecidableEq

/-- The letters that stand for a control character. -/
def controls : List (Char × Char) :=
  [('b', '\x08'), ('t', '\t'), ('n', '\n'), ('v', '\x0b'), ('f', '\x0c'), ('r', '\r')]

/-- The digits but zero. -/
def positiveDigits : List Char := ['1', '2', '3', '4', '5', '6', '7', '8', '9']

/-- The ends of lines that are one point. -/
def lineEnds : List Char := ['\n', '\u2028', '\u2029']

/-- The characters that mean something else behind a backslash. -/
def reserved : List Char :=
  'x' :: 'u' :: '0' :: '\r' :: controls.map (·.1) ++ positiveDigits ++ lineEnds

/-- The number written in hexadecimal digits. -/
def hexValue? (ds : Text) : Option Nat :=
  ds.foldlM (fun n d => (hexDigit? d).map (n * 16 + ·)) 0

/-- Behind a backslash, and in front of the given rest, a text is an
escape with the given meaning. An octal escape is cut off behind its
first digit: it has no value here, wherever it ends. -/
inductive Escape : Text → Text → Meaning → Prop
  | control {c d : Char} {rest : Text} : (c, d) ∈ controls →
      Escape [.scalar c] rest (.text [.scalar d])
  | itself {p : Point} {rest : Text} : (∀ c ∈ reserved, p ≠ .scalar c) →
      Escape [p] rest (.text [p])
  | null {rest : Text} : (∀ d ∈ rest.head?, d.test Char.isDigit = false) →
      Escape [.scalar '0'] rest (.text [.scalar '\x00'])
  | octalZero {d : Point} {rest : Text} : d.test Char.isDigit = true →
      Escape [.scalar '0'] (d :: rest) .legacy
  | digit {c : Char} {rest : Text} : c ∈ positiveDigits →
      Escape [.scalar c] rest .legacy
  | hex {a b p : Point} {rest : Text} : hexValue? [a, b] = some p.code →
      Escape [.scalar 'x', a, b] rest (.text [p])
  | unit {ds : Text} {p : Point} {rest : Text} : ds.length = 4 →
      hexValue? ds = some p.code → Escape (.scalar 'u' :: ds) rest (.text [p])
  | point {ds : Text} {p : Point} {rest : Text} : ds ≠ [] →
      hexValue? ds = some p.code →
      Escape (.scalar 'u' :: .scalar '\x7b' :: (ds ++ [.scalar '\x7d'])) rest (.text [p])
  | beyond {ds : Text} {n : Nat} {rest : Text} : ds ≠ [] →
      hexValue? ds = some n → 0x10FFFF < n →
      Escape (.scalar 'u' :: .scalar '\x7b' :: (ds ++ [.scalar '\x7d'])) rest (.beyond n)
  | lineEnd {c : Char} {rest : Text} : c ∈ lineEnds →
      Escape [.scalar c] rest (.text [])
  | crlf {rest : Text} : Escape [.scalar '\r', .scalar '\n'] rest (.text [])
  | cr {rest : Text} : rest.head? ≠ some (.scalar '\n') →
      Escape [.scalar '\r'] rest (.text [])

theorem Escape.itself_of_not_mem {c : Char} {rest : Text} (h : c ∉ reserved) :
    Escape [.scalar c] rest (.text [.scalar c]) :=
  .itself fun _ hd hcd => h (Point.scalar.inj hcd ▸ hd)

-- ================================================================= parts

/-- A part of a literal's body. -/
inductive Part where
  | raw (p : Point)
  /-- An escape, as it is written behind its backslash. -/
  | escape (written : Text) (m : Meaning)
deriving DecidableEq

/-- The body of a literal between two of the given quotes is read as the
given parts. -/
inductive Reading (quote : Point) : Text → List Part → Prop
  | nil : Reading quote [] []
  | raw {p : Point} {t : Text} {ps : List Part} : p ≠ .scalar '\\' → p ≠ quote →
      Reading quote t ps → Reading quote (p :: t) (.raw p :: ps)
  | escape {e t : Text} {m : Meaning} {ps : List Part} : Escape e t m →
      Reading quote t ps → Reading quote (.scalar '\\' :: (e ++ t)) (.escape e m :: ps)

/-- A line ends at this point of the source, otherwise than a template
denotes it, or in a string at all. -/
def breaks (isTemplate : Bool) (p : Point) : Bool :=
  p.is '\r' || (!isTemplate && p.is '\n')

/-- The units of a literal's value, if it has one. -/
def value? (isTemplate : Bool) : List Part → Option (List Nat)
  | [] => some []
  | .raw p :: ps =>
    if !breaks isTemplate p then (value? isTemplate ps).map (p.units ++ ·)
    else if !isTemplate then none
    else if ps.head? = some (.raw (.scalar '\n')) then value? isTemplate ps
    else (value? isTemplate ps).map (0xA :: ·)
  | .escape _ (.text t) :: ps => (value? isTemplate ps).map (t.units ++ ·)
  | .escape _ _ :: _ => none

/-- The part stands for a text. -/
def Part.IsValued : Part → Prop
  | .raw _ => True
  | .escape _ m => ∃ t, m = .text t

/-- Somewhere an escaped backslash stands before a zero and a digit. -/
def Mistakable (ps : List Part) : Prop :=
  ∃ (m : Meaning) (d : Char), d.isDigit = true ∧
    [.escape [.scalar '\\'] m, .raw (.scalar '0'), .raw (.scalar d)] <:+: ps

-- ============================================================= decoding

section Decoding

variable {e t rest ds : Text} {d q : Point} {m : Meaning} {ps : List Part}

/-- What the decoder makes of a part. -/
def Part.outcome : Part → Except Unreadable Text
  | .raw p => .ok [p]
  | .escape _ (.text t) => .ok t
  | .escape _ .legacy => .error .ambiguous
  | .escape _ (.beyond n) => .error (if n < 0x80000000 then .ambiguous else .oversized)

/-- What the decoder makes of the parts: a text, or what is wrong with the
first part that is not valued. -/
def decoded : List Part → Except Unreadable Text
  | [] => .ok []
  | p :: ps => do return (← p.outcome) ++ (← decoded ps)

theorem numbered_code (p : Point) : numbered p.code = .ok p := by
  rw [numbered, Point.ofCode?_code]

theorem numbered_beyond {n : Nat} (h : 0x10FFFF < n) :
    numbered n = .error (if n < 0x80000000 then .ambiguous else .oversized) := by
  rw [numbered, Point.ofCode?_eq_none h]

/-- Reading digits goes on to the end of the digits. -/
theorem hexNumber_append {value n : Nat} (count : Nat) (rest : Text)
    (h : ds.foldlM (fun n d => (hexDigit? d).map (n * 16 + ·)) value = some n)
    (hrest : rest.head?.bind hexDigit? = none) :
    hexNumber (ds ++ rest) value count = (n, count + ds.length, rest) := by
  induction ds generalizing value count with
  | nil =>
      obtain rfl : value = n := by simpa using h
      cases rest with
      | nil => rfl
      | cons p rest =>
          have hp : hexDigit? p = none := hrest
          simp [hexNumber, hp]
  | cons d ds ih =>
      rw [List.foldlM_cons] at h
      obtain ⟨v, hv, h⟩ := Option.bind_eq_some_iff.1 h
      obtain ⟨k, hk, rfl⟩ := Option.map_eq_some_iff.1 hv
      rw [List.cons_append, hexNumber, hk]
      simp only
      rw [ih (count + 1) h, List.length_cons, Nat.add_assoc, Nat.add_comm 1]

theorem unescapeFrom_skip (e t : Text) :
    unescapeFrom e.length (e ++ t) = unescapeFrom 0 t := by
  induction e with
  | nil => rfl
  | cons p e ih => rw [List.length_cons, List.cons_append, unescapeFrom, ih]

theorem escapeAt_braced {n : Nat} (hne : ds ≠ []) (h : hexValue? ds = some n) :
    escapeAt (.scalar 'u' :: .scalar '\x7b' :: (ds ++ [.scalar '\x7d']) ++ rest)
      = (numbered n).map fun p => ([p], ds.length + 3) := by
  have hrun := hexNumber_append 0 (.scalar '\x7d' :: rest) h rfl
  have hlen : ds.length ≠ 0 := fun h0 => hne (List.eq_nil_of_length_eq_zero h0)
  simp only [List.cons_append, List.append_assoc, List.nil_append, escapeAt, hrun,
    Nat.zero_add, if_neg hlen]
  cases numbered n <;> rfl

theorem mem_positiveDigits {c : Char} (hlow : '1' ≤ c) (hhigh : c ≤ '9') :
    c ∈ positiveDigits := by
  have hall : ∀ k : Fin 9, Char.ofNat (49 + k) ∈ positiveDigits := by decide
  have hlow : 49 ≤ c.toNat := hlow
  have hhigh : c.toNat ≤ 57 := hhigh
  have hc := hall ⟨c.toNat - 49, by omega⟩
  rwa [show 49 + (c.toNat - 49) = c.toNat by omega, Char.ofNat_toNat] at hc

theorem simpleEscape_itself {p : Point} (h : ∀ c ∈ reserved, p ≠ .scalar c) :
    simpleEscape p = .ok [p] := by
  cases p with
  | surrogate n => rfl
  | scalar c =>
      have hne : ∀ d ∈ reserved, c ≠ d := fun d hd hcd => h d hd (congrArg _ hcd)
      have hend : c.toNat ≠ 0x2028 ∧ c.toNat ≠ 0x2029 := by
        constructor
        · exact fun hc => hne '\u2028' (by decide) (Char.toNat_inj.1 hc)
        · exact fun hc => hne '\u2029' (by decide) (Char.toNat_inj.1 hc)
      have hdigit : ¬ ('1' ≤ c ∧ c ≤ '9') := fun hc =>
        hne c (by simp [reserved, mem_positiveDigits hc.1 hc.2]) rfl
      unfold simpleEscape
      dsimp only
      split
      all_goals try exact absurd rfl (hne _ (by decide))
      simp [hend.1, hend.2, hdigit]

/-- An escape of one point that starts no longer one. -/
theorem escapeAt_single {p : Point} {u : Except Unreadable Text}
    (hx : p ≠ .scalar 'x') (hu : p ≠ .scalar 'u') (hcr : p ≠ .scalar '\r')
    (h : simpleEscape p = u) : escapeAt (p :: rest) = u.map fun t => (t, 1) := by
  subst h
  unfold escapeAt
  split
  · contradiction
  · next h => exact absurd (List.cons.inj h).1 hx
  · next h => exact absurd (List.cons.inj h).1 hu
  · next h => exact absurd (List.cons.inj h).1 hcr
  · next h =>
      obtain ⟨rfl, -⟩ := List.cons.inj h
      cases simpleEscape p <;> rfl

theorem escapeAt_hex {a b p : Point} (h : hexValue? [a, b] = some p.code) :
    escapeAt (.scalar 'x' :: a :: b :: rest) = .ok ([p], 3) := by
  obtain ⟨v, hv, h⟩ := Option.bind_eq_some_iff.1 h
  obtain ⟨i, hi, rfl⟩ := Option.map_eq_some_iff.1 hv
  obtain ⟨w, hw, h⟩ := Option.bind_eq_some_iff.1 h
  obtain ⟨j, hj, rfl⟩ := Option.map_eq_some_iff.1 hw
  have hp : i * 16 + j = p.code := by
    have := Option.some.inj h
    omega
  simp only [escapeAt, hi, hj, hp, numbered_code]
  rfl

theorem isHex_of_foldlM {value n : Nat}
    (h : ds.foldlM (fun n d => (hexDigit? d).map (n * 16 + ·)) value = some n) :
    ∀ d ∈ ds, (hexDigit? d).isSome = true := by
  induction ds generalizing value with
  | nil => exact List.forall_mem_nil _
  | cons d ds ih =>
      rw [List.foldlM_cons] at h
      obtain ⟨v, hv, h⟩ := Option.bind_eq_some_iff.1 h
      obtain ⟨k, hk, -⟩ := Option.map_eq_some_iff.1 hv
      exact List.forall_mem_cons.2 ⟨by rw [hk]; rfl, ih h⟩

/-- Only digits make a number. -/
theorem not_mem_of_hexValue? {n : Nat} (h : hexValue? ds = some n)
    (hd : hexDigit? d = none) : d ∉ ds := by
  intro hmem
  have hsome := isHex_of_foldlM h d hmem
  rw [hd] at hsome
  cases hsome

theorem escapeAt_unit {p : Point} (hlen : ds.length = 4) (h : hexValue? ds = some p.code) :
    escapeAt (.scalar 'u' :: (ds ++ rest)) = .ok ([p], 5) := by
  have hrun := hexNumber_append 0 [] h rfl
  have htake : (ds ++ rest).take 4 = ds := by rw [← hlen, List.take_left]
  rw [List.append_nil, hlen] at hrun
  cases ds with
  | nil => cases hlen
  | cons d ds =>
      have hd : d ≠ .scalar '\x7b' := by
        rintro rfl
        exact not_mem_of_hexValue? h rfl List.mem_cons_self
      rw [List.cons_append] at htake ⊢
      unfold escapeAt
      split
      · contradiction
      · next h => cases (List.cons.inj h).1
      · next h =>
          obtain ⟨-, rfl⟩ := List.cons.inj h
          split
          · next h => exact absurd (List.cons.inj h).1 hd
          · rw [htake, hrun]
            simp only [numbered_code]
            rfl
      · next h => cases (List.cons.inj h).1
      · next hu _ h => exact (hu (List.cons.inj h).1.symm).elim

/-- The decoder takes an escape for what it means. Only of a zero it does
not ask what follows. -/
theorem escapeAt_of_escape (h : Escape e rest m) (hm : e = [.scalar '0'] → m ≠ .legacy) :
    escapeAt (e ++ rest) = (Part.escape e m).outcome.map fun t => (t, e.length) := by
  cases h with
  | @control c d _ hc =>
      simp only [controls, List.mem_cons, Prod.mk.injEq, List.not_mem_nil, or_false] at hc
      rcases hc with ⟨rfl, rfl⟩ | ⟨rfl, rfl⟩ | ⟨rfl, rfl⟩ | ⟨rfl, rfl⟩ | ⟨rfl, rfl⟩
        | ⟨rfl, rfl⟩ <;> rfl
  | itself hp =>
      exact escapeAt_single (hp _ (by decide)) (hp _ (by decide)) (hp _ (by decide))
        (simpleEscape_itself hp)
  | null h0 => rfl
  | octalZero hd => exact absurd rfl (hm rfl)
  | digit hc =>
      simp only [positiveDigits, List.mem_cons, List.not_mem_nil, or_false] at hc
      rcases hc with rfl | rfl | rfl | rfl | rfl | rfl | rfl | rfl | rfl <;> rfl
  | hex hab => exact escapeAt_hex hab
  | unit hlen hds =>
      rw [List.cons_append, escapeAt_unit hlen hds, List.length_cons, hlen]
      rfl
  | point hne hds =>
      rw [escapeAt_braced hne hds, numbered_code]
      simp [Part.outcome, Except.map]
  | beyond hne hds hn =>
      rw [escapeAt_braced hne hds, numbered_beyond hn]
      simp [Part.outcome, Except.map]
  | lineEnd hc =>
      simp only [lineEnds, List.mem_cons, List.not_mem_nil, or_false] at hc
      rcases hc with rfl | rfl | rfl <;> rfl
  | crlf => rfl
  | cr hr =>
      cases rest with
      | nil => rfl
      | cons p rest =>
          have hp : p ≠ .scalar '\n' := fun hp => hr (congrArg some hp)
          rw [List.singleton_append]
          unfold escapeAt
          split
          · contradiction
          · next h => cases (List.cons.inj h).1
          · next h => cases (List.cons.inj h).1
          · next h => exact absurd (List.cons.inj (List.cons.inj h).2).1 hp
          · next h =>
              obtain ⟨rfl, -⟩ := List.cons.inj h
              rfl

theorem Reading.mem_of_raw {p : Point} (h : Reading q t ps) (hp : .raw p ∈ ps) : p ∈ t := by
  induction h with
  | nil => cases hp
  | raw _ _ _ ih =>
      rcases List.mem_cons.1 hp with hp | hp
      · exact List.mem_cons.2 (Or.inl (Part.raw.inj hp))
      · exact List.mem_cons_of_mem _ (ih hp)
  | escape _ _ ih =>
      rcases List.mem_cons.1 hp with hp | hp
      · cases hp
      · exact List.mem_cons_of_mem _ (List.mem_append_right _ (ih hp))

/-- The body holds an octal escape of a zero and more digits. -/
def HasOctalZero (ps : List Part) : Prop := .escape [.scalar '0'] .legacy ∈ ps

/-- The decoder reads the parts that the body consists of. -/
theorem unescapeFrom_of_reading (h : Reading q t ps) (h0 : ¬ HasOctalZero ps) :
    unescapeFrom 0 t = decoded ps := by
  induction h with
  | nil => rfl
  | @raw p t ps hp hq ht ih =>
      have hslash : p.is '\\' = false := by simpa [Point.is] using hp
      rw [unescapeFrom, hslash, ih fun hz => h0 (List.mem_cons_of_mem _ hz)]
      rfl
  | @escape e t m ps he ht ih =>
      have hm : e = [.scalar '0'] → m ≠ .legacy := by
        rintro rfl rfl
        exact h0 List.mem_cons_self
      have hrest := ih fun hz => h0 (List.mem_cons_of_mem _ hz)
      rw [unescapeFrom, if_pos (by rfl), escapeAt_of_escape he hm, decoded]
      cases (Part.escape e m).outcome with
      | error r => rfl
      | ok u =>
          simp only [Except.map, bind, Except.bind, unescapeFrom_skip, hrest]

-- ------------------------------------------------- the search for \\0

/-- A backslash, a zero and a digit, wherever an escape starts. -/
def octalZero (d : Char) : Text := [.scalar '\\', .scalar '0', .scalar d]

theorem hasOctalZero_iff :
    hasOctalZero t = true ↔ ∃ d : Char, d.isDigit = true ∧ octalZero d <:+: t := by
  induction t with
  | nil => simp [hasOctalZero, suffixes, octalZero]
  | cons p t ih =>
      have hcons : hasOctalZero (p :: t) = true ↔
          (∃ d : Char, d.isDigit = true ∧ octalZero d <+: p :: t)
            ∨ hasOctalZero t = true := by
        rw [hasOctalZero, suffixes, List.any_cons, Bool.or_eq_true]
        refine or_congr ?_ Iff.rfl
        rcases t with _ | ⟨q, _ | ⟨r, t⟩⟩
        · simp [octalZero]
        · simp [octalZero]
        · cases r with
          | surrogate n => simp [octalZero, Point.test]
          | scalar c =>
              simp only [octalZero, Point.test, Point.is, Bool.and_eq_true, beq_iff_eq,
                List.cons_prefix_cons, List.nil_prefix, and_true, Point.scalar.injEq]
              constructor
              · rintro ⟨⟨rfl, rfl⟩, hc⟩
                exact ⟨c, hc, rfl, rfl, rfl⟩
              · rintro ⟨d, hd, rfl, rfl, rfl⟩
                exact ⟨⟨rfl, rfl⟩, hd⟩
      rw [hcons, ih, ← exists_or]
      simp only [List.infix_cons_iff, and_or_left]

/-- An escape is an escaped backslash, a zero, or neither holds the one nor
starts with the other. -/
theorem Escape.written (h : Escape e rest m) :
    e = [.scalar '\\'] ∨ e = [.scalar '0']
      ∨ ∃ p u, e = p :: u ∧ .scalar '\\' ∉ p :: u ∧ p ≠ .scalar '0' := by
  have hother {p : Point} {u : Text} (hp : p ≠ .scalar '\\' ∧ p ≠ .scalar '0')
      (hu : .scalar '\\' ∉ u) :
      ∃ p' u', p :: u = p' :: u' ∧ .scalar '\\' ∉ p' :: u' ∧ p' ≠ .scalar '0' :=
    ⟨p, u, rfl, by simpa [List.mem_cons, not_or] using ⟨hp.1.symm, hu⟩, hp.2⟩
  have hnumber {ds : Text} {n : Nat} (hn : hexValue? ds = some n) : .scalar '\\' ∉ ds :=
    not_mem_of_hexValue? hn rfl
  have hbraced {ds : Text} {n : Nat} (hn : hexValue? ds = some n) :
      .scalar '\\' ∉ .scalar '\x7b' :: (ds ++ [.scalar '\x7d']) := by
    simpa using hnumber hn
  have hnone : (.scalar '\\' : Point) ∉ [] := List.not_mem_nil
  cases h with
  | @itself p _ hp =>
      by_cases hslash : p = .scalar '\\'
      · exact Or.inl (by rw [hslash])
      · exact Or.inr (Or.inr (hother ⟨hslash, hp _ (by decide)⟩ hnone))
  | control hc =>
      have hall : ∀ k ∈ controls, k.1 ≠ '\\' ∧ k.1 ≠ '0' := by decide
      exact Or.inr (Or.inr (hother (by simpa using hall _ hc) hnone))
  | null => exact Or.inr (Or.inl rfl)
  | octalZero => exact Or.inr (Or.inl rfl)
  | digit hc =>
      have hall : ∀ c ∈ positiveDigits, c ≠ '\\' ∧ c ≠ '0' := by simp [positiveDigits]
      exact Or.inr (Or.inr (hother (by simpa using hall _ hc) hnone))
  | lineEnd hc =>
      have hall : ∀ c ∈ lineEnds, c ≠ '\\' ∧ c ≠ '0' := by simp [lineEnds]
      exact Or.inr (Or.inr (hother (by simpa using hall _ hc) hnone))
  | cr => exact Or.inr (Or.inr (hother (by decide) hnone))
  | crlf => exact Or.inr (Or.inr (hother (by decide) (by decide)))
  | hex hn => exact Or.inr (Or.inr (hother (by decide) (hnumber hn)))
  | unit hlen hn => exact Or.inr (Or.inr (hother (by decide) (hnumber hn)))
  | point hne hn => exact Or.inr (Or.inr (hother (by decide) (hbraced hn)))
  | beyond hne hn hlarge => exact Or.inr (Or.inr (hother (by decide) (hbraced hn)))

/-- A zero is the start of an octal escape exactly before a digit. -/
theorem Escape.zero_iff (h : Escape [.scalar '0'] rest m) :
    m = .legacy ↔ ∃ d : Char, d.isDigit = true ∧ [.scalar d] <+: rest := by
  cases h with
  | control hc =>
      have hall : ∀ k ∈ controls, k.1 ≠ '0' := by decide
      exact absurd rfl (hall _ hc)
  | itself hp => exact absurd rfl (hp '0' (by decide))
  | null h0 =>
      refine ⟨fun hm => (nomatch hm), ?_⟩
      rintro ⟨d, hd, u, rfl⟩
      have := h0 (.scalar d) rfl
      rw [Point.test, hd] at this
      cases this
  | @octalZero d rest hd =>
      refine ⟨fun _ => ?_, fun _ => rfl⟩
      cases d with
      | scalar c => exact ⟨c, hd, rest, rfl⟩
      | surrogate n => cases hd
  | digit hc => exact absurd hc (by decide)
  | lineEnd hc => exact absurd hc (by decide)

theorem ne_slash_of_isDigit {d : Char} (hd : d.isDigit = true) :
    (.scalar d : Point) ≠ .scalar '\\' := by
  rintro h
  obtain rfl := Point.scalar.inj h
  cases hd

/-- A zero and a digit in the body are the parts that they look like. -/
theorem Reading.startsZero_iff (h : Reading q t ps) :
    (∃ d : Char, d.isDigit = true ∧ [.scalar '0', .scalar d] <+: t)
      ↔ ∃ d : Char, d.isDigit = true ∧ [.raw (.scalar '0'), .raw (.scalar d)] <+: ps := by
  have hraw {p : Point} {t : Text} {ps : List Part} (hp : p ≠ .scalar '\\')
      (h : Reading q t ps) : [p] <+: t ↔ [.raw p] <+: ps := by
    cases h with
    | nil => simp
    | raw => simp
    | escape => simpa using hp
  have hzero : (.scalar '0' : Point) ≠ .scalar '\\' := by decide
  refine exists_congr fun d => and_congr_right fun hd => ?_
  cases h with
  | nil => simp
  | raw hp hq ht =>
      rw [List.cons_prefix_cons, List.cons_prefix_cons, hraw (ne_slash_of_isDigit hd) ht,
        Part.raw.injEq]
  | escape he ht => simp

theorem hasOctalZero_slash : hasOctalZero (.scalar '\\' :: t) = true ↔
    (∃ d : Char, d.isDigit = true ∧ [.scalar '0', .scalar d] <+: t)
      ∨ hasOctalZero t = true := by
  simp only [hasOctalZero_iff, List.infix_cons_iff, octalZero, List.cons_prefix_cons,
    true_and, and_or_left, exists_or]

theorem hasOctalZero_append (he : .scalar '\\' ∉ e) :
    hasOctalZero (e ++ t) = true ↔ hasOctalZero t = true := by
  induction e with
  | nil => rfl
  | cons p e ih =>
      rw [List.mem_cons, not_or] at he
      rw [List.cons_append, ← ih he.2]
      simp only [hasOctalZero_iff, List.infix_cons_iff, octalZero, List.cons_prefix_cons,
        he.1, false_and, false_or]

theorem mistakable_cons {p : Part} : Mistakable (p :: ps) ↔
    ((∃ m, p = .escape [.scalar '\\'] m) ∧ ∃ d : Char, d.isDigit = true
      ∧ [.raw (.scalar '0'), .raw (.scalar d)] <+: ps) ∨ Mistakable ps := by
  simp only [Mistakable, List.infix_cons_iff, List.cons_prefix_cons]
  constructor
  · rintro ⟨m, d, hd, ⟨rfl, hpre⟩ | hin⟩
    · exact Or.inl ⟨⟨m, rfl⟩, d, hd, hpre⟩
    · exact Or.inr ⟨m, d, hd, hin⟩
  · rintro (⟨⟨m, rfl⟩, d, hd, hpre⟩ | ⟨m, d, hd, hin⟩)
    · exact ⟨m, d, hd, Or.inl ⟨rfl, hpre⟩⟩
    · exact ⟨m, d, hd, Or.inr hin⟩

/-- The search finds what it is for, and escaped backslashes. -/
theorem hasOctalZero_of_reading (h : Reading q t ps) :
    hasOctalZero t = true ↔ HasOctalZero ps ∨ Mistakable ps := by
  induction h with
  | nil => simp [hasOctalZero, suffixes, HasOctalZero, Mistakable]
  | @raw p t ps hp hq ht ih =>
      rw [← List.singleton_append, hasOctalZero_append (by simpa using hp.symm), ih,
        mistakable_cons]
      simp [HasOctalZero]
  | @escape e t m ps he ht ih =>
      rw [hasOctalZero_slash, mistakable_cons, HasOctalZero, List.mem_cons]
      rcases he.written with rfl | rfl | ⟨p, u, rfl, hslash, hzero⟩
      · rw [List.singleton_append, hasOctalZero_slash, ih, ht.startsZero_iff]
        simp [HasOctalZero, or_left_comm]
      · rw [hasOctalZero_append (by decide), ih]
        simp only [List.singleton_append, List.cons_prefix_cons, true_and, Part.escape.injEq,
          ← he.zero_iff, HasOctalZero, eq_comm (a := m)]
        simp [or_assoc]
      · rw [hasOctalZero_append hslash, ih]
        have hp : p ≠ .scalar '\\' := by
          rintro rfl
          exact hslash List.mem_cons_self
        simp [hzero.symm, hp, HasOctalZero]

end Decoding

-- ================================================================ values

section Values

variable {t v : Text} {q : Point} {p : Part} {ps : List Part} {isTemplate : Bool}

theorem decoded_cons_eq_ok :
    decoded (p :: ps) = .ok v ↔ ∃ u w, p.outcome = .ok u ∧ decoded ps = .ok w
      ∧ v = u ++ w := by
  rw [decoded]
  cases p.outcome with
  | error r => simp [bind, Except.bind]
  | ok u =>
      cases decoded ps with
      | error r => simp [bind, Except.bind]
      | ok w => simp [bind, Except.bind, pure, Except.pure, eq_comm]

theorem Part.isValued_iff : p.IsValued ↔ ∃ u, p.outcome = .ok u := by
  cases p with
  | raw c => simp [IsValued, outcome]
  | escape e m => cases m <;> simp [IsValued, outcome]

theorem Part.outcome_eq_oversized :
    p.outcome = .error .oversized ↔ ∃ e n, p = .escape e (.beyond n) ∧ 0x80000000 ≤ n := by
  cases p with
  | raw c => simp [outcome]
  | escape e m =>
      cases m with
      | text t => simp [outcome]
      | legacy => simp [outcome]
      | beyond n =>
          rw [outcome]
          split
          · next hn => simp; omega
          · next hn => simp; omega

/-- The parts give a text if each of them does. -/
theorem exists_decoded_iff :
    (∃ v, decoded ps = .ok v) ↔ ∀ p ∈ ps, p.IsValued := by
  induction ps with
  | nil => simp [decoded]
  | cons p ps ih =>
      rw [List.forall_mem_cons, ← ih, Part.isValued_iff]
      simp only [decoded_cons_eq_ok]
      constructor
      · rintro ⟨v, u, w, hu, hw, -⟩
        exact ⟨⟨u, hu⟩, w, hw⟩
      · rintro ⟨⟨u, hu⟩, w, hw⟩
        exact ⟨_, u, w, hu, hw, rfl⟩

/-- The first part that is not valued names a number that is far too
large. -/
def IsOversized (ps : List Part) : Prop :=
  ∃ before e n after, ps = before ++ .escape e (.beyond n) :: after
    ∧ 0x80000000 ≤ n ∧ ∀ p ∈ before, p.IsValued

theorem isOversized_cons : IsOversized (p :: ps)
    ↔ p.outcome = .error .oversized ∨ p.IsValued ∧ IsOversized ps := by
  constructor
  · rintro ⟨_ | ⟨c, before⟩, e, n, after, heq, hn, hvalued⟩
    · obtain ⟨rfl, rfl⟩ := List.cons.inj heq
      rw [Part.outcome, if_neg (Nat.not_lt.2 hn)]
      exact Or.inl rfl
    · obtain ⟨rfl, rfl⟩ := List.cons.inj heq
      rw [List.forall_mem_cons] at hvalued
      exact Or.inr ⟨hvalued.1, before, e, n, after, rfl, hn, hvalued.2⟩
  · rintro (hp | ⟨hp, before, e, n, after, rfl, hn, hvalued⟩)
    · obtain ⟨e, n, rfl, hn⟩ := Part.outcome_eq_oversized.1 hp
      exact ⟨[], e, n, ps, rfl, hn, List.forall_mem_nil _⟩
    · exact ⟨p :: before, e, n, after, rfl, hn, List.forall_mem_cons.2 ⟨hp, hvalued⟩⟩

/-- Decoding breaks off at the first part that is not valued. -/
theorem decoded_eq_oversized : decoded ps = .error .oversized ↔ IsOversized ps := by
  induction ps with
  | nil => simp [decoded, IsOversized]
  | cons p ps ih =>
      rw [isOversized_cons, ← ih, Part.isValued_iff, decoded]
      cases p.outcome with
      | error r => simp [bind, Except.bind]
      | ok u => cases decoded ps <;> simp [bind, Except.bind, pure, Except.pure]

/-- In a template, a line that ends in the source ends with a line feed. -/
theorem head?_value?_lineFeed {us : List Nat}
    (h : value? true (.raw (.scalar '\n') :: ps) = some us) : us.head? = some 0xA := by
  obtain ⟨x, -, rfl⟩ := Option.map_eq_some_iff.1 h
  rfl

theorem value?_broken {c : Point} (hb : breaks isTemplate c = true) :
    value? isTemplate (.raw c :: ps) ≠ some (units (c :: v)) := by
  intro h
  rw [value?, hb] at h
  cases isTemplate with
  | false => cases h
  | true =>
      obtain rfl : c = .scalar '\r' := by simpa [breaks, Point.is] using hb
      have hhead : (units (.scalar '\r' :: v)).head? = some 0xD := rfl
      have hfeed : (units (.scalar '\r' :: v)).head? = some 0xA := by
        simp only [Bool.not_true, Bool.false_eq_true, if_false] at h
        split at h
        · next hnext =>
            obtain ⟨rest, rfl⟩ := List.head?_eq_some_iff.1 hnext
            exact head?_value?_lineFeed h
        · obtain ⟨x, -, hx⟩ := Option.map_eq_some_iff.1 h
          rw [← hx]
          rfl
      rw [hhead] at hfeed
      cases hfeed

/-- Decoding gives the value, unless a line ends in the source where the
value has another end of line, or none. -/
theorem value?_iff (h : decoded ps = .ok v) :
    value? isTemplate ps = some v.units
      ↔ ∀ p, .raw p ∈ ps → breaks isTemplate p = false := by
  induction ps generalizing v with
  | nil =>
      obtain rfl := Except.ok.inj h
      simp [value?, units]
  | cons part ps ih =>
      obtain ⟨u, w, hu, hw, rfl⟩ := decoded_cons_eq_ok.1 h
      have hcons : (value? isTemplate ps).map (u.units ++ ·) = some (u ++ w).units
          ↔ ∀ p, .raw p ∈ ps → breaks isTemplate p = false := by
        rw [← ih hw, units_append, Option.map_eq_some_iff]
        constructor
        · rintro ⟨x, hx, heq⟩
          rw [hx, List.append_cancel_left heq]
        · exact fun hx => ⟨_, hx, rfl⟩
      cases part with
      | escape e m =>
          obtain rfl : m = .text u := by
            cases m with
            | text t => rw [Except.ok.inj hu]
            | legacy => cases hu
            | beyond n => cases hu
          rw [value?, hcons]
          simp
      | raw p =>
          obtain rfl : u = [p] := (Except.ok.inj hu).symm
          have hcons : (value? isTemplate ps).map (p.units ++ ·) = some (units ([p] ++ w))
              ↔ ∀ p, .raw p ∈ ps → breaks isTemplate p = false := by
            simpa [units] using hcons
          simp only [List.mem_cons, Part.raw.injEq, forall_eq_or_imp]
          cases hb : breaks isTemplate p with
          | false =>
              rw [value?, hb]
              simpa using hcons
          | true => exact iff_of_false (value?_broken hb) fun h => nomatch h.1

end Values

end Literal

end Codemod
