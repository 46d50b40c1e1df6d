/-
Literals that are built.

A literal node is its body between two quotes, and its value is what the
decoder makes of the body (`Node.stringValue_of_code`). The builder of
literals writes each point as itself or as an escape that means it
(`Writes`), so what it builds denotes the given text, whichever quote is
chosen (`Writes.reading`). Reading the value back fails on a text that
holds a backslash, a zero and a digit in a row: the backslash is escaped,
and the decoder searches for `\0` before a digit without looking where an
escape starts.

Main statement: `quoted_denotes`. A built literal denotes the given text,
and its value is read back unless the text holds such a row.
-/
import Mathlib.Data.Bool.AllAny
import Codemod.Proofs.Text.Literal
import Codemod.Tree.Expression
import Codemod.Tree.Build

namespace Codemod

open Literal Text

-- =============================================================== literals

section Nodes

variable {n : Node} {q : Point} {body : Text} {ps : List Part}

/-- The value of a literal is what the decoder makes of its body. -/
theorem Node.stringValue_of_code (hk : n.isAny [.string, .templateString] = true)
    (hsub : n.children.any (·.is .templateSubstitution) = false)
    (hcode : n.code = q :: (body ++ [q])) :
    n.stringValue = match unescape body with
      | .ok t => .ok (some t)
      | .error .ambiguous => .ok none
      | .error .oversized => .error .oversizedEscape := by
  rw [Node.stringValue, hk, hsub, hcode, List.drop_one, List.tail_cons,
    List.dropLast_concat]
  rfl

/-- A literal has no value if the search before decoding finds something. -/
theorem Node.stringValue_refused (hk : n.isAny [.string, .templateString] = true)
    (hsub : n.children.any (·.is .templateSubstitution) = false)
    (hcode : n.code = q :: (body ++ [q])) (h : Reading q body ps)
    (hfound : HasOctalZero ps ∨ Mistakable ps) : n.stringValue = .ok none := by
  rw [Node.stringValue_of_code hk hsub hcode, unescape,
    if_pos ((hasOctalZero_of_reading h).2 hfound)]

/-- Otherwise its value is what its parts give. -/
theorem Node.stringValue_decoded (hk : n.isAny [.string, .templateString] = true)
    (hsub : n.children.any (·.is .templateSubstitution) = false)
    (hcode : n.code = q :: (body ++ [q])) (h : Reading q body ps)
    (hfound : ¬ (HasOctalZero ps ∨ Mistakable ps)) :
    n.stringValue = match decoded ps with
      | .ok t => .ok (some t)
      | .error .ambiguous => .ok none
      | .error .oversized => .error .oversizedEscape := by
  rw [Node.stringValue_of_code hk hsub hcode, unescape,
    if_neg ((hasOctalZero_of_reading h).not.2 hfound),
    unescapeFrom_of_reading h fun hz => hfound (Or.inl hz)]

end Nodes

-- ================================================================ writing

/-- The point is written as the given text, between two of the given
quotes. -/
inductive Writes (quote p : Point) : Text → Prop
  | raw : p ≠ .scalar '\\' → p ≠ quote → breaks false p = false → Writes quote p [p]
  | escape {e : Text} : (∀ rest, Escape e rest (.text [p])) →
      Writes quote p (.scalar '\\' :: e)

/-- The part that the written text of a point is. -/
def partOf (p : Point) (w : Text) : Part :=
  if w = [p] then .raw p else .escape w.tail (.text [p])

section Writing

variable {q p : Point} {v w : Text} {c : Char} {write : Point → Text}

theorem ne_nil_of_escape {e rest : Text} {m : Meaning} (h : Escape e rest m) : e ≠ [] := by
  cases h <;> exact List.cons_ne_nil _ _

/-- What is written for a point is read as its part. -/
theorem Writes.reading_cons (h : Writes q p w) {t : Text} {ps : List Part}
    (ht : Reading q t ps) : Reading q (w ++ t) (partOf p w :: ps) := by
  cases h with
  | raw hslash hq hb =>
      rw [partOf, if_pos rfl]
      exact .raw hslash hq ht
  | @escape e he =>
      have hne : .scalar '\\' :: e ≠ [p] := fun h =>
        ne_nil_of_escape (he []) (List.cons.inj h).2
      rw [partOf, if_neg hne]
      exact .escape (he t) ht

theorem Writes.reading (h : ∀ p, Writes q p (write p)) (v : Text) :
    Reading q (v.flatMap write) (v.map fun p => partOf p (write p)) := by
  induction v with
  | nil => exact .nil
  | cons p v ih => exact (h p).reading_cons ih

theorem outcome_partOf : (partOf p w).outcome = .ok [p] := by
  unfold partOf
  split <;> rfl

theorem decoded_partOf (v : Text) :
    decoded (v.map fun p => partOf p (write p)) = .ok v := by
  induction v with
  | nil => rfl
  | cons p v ih => exact decoded_cons_eq_ok.2 ⟨_, _, outcome_partOf, ih, rfl⟩

/-- No line ends in what is written. -/
theorem Writes.breaks_eq_false (h : Writes q p w) {c : Point} (hc : partOf p w = .raw c) :
    breaks false c = false := by
  cases h with
  | raw hslash hq hb =>
      rw [partOf, if_pos rfl] at hc
      rwa [← Part.raw.inj hc]
  | @escape e he =>
      have hne : .scalar '\\' :: e ≠ [p] := fun h =>
        ne_nil_of_escape (he []) (List.cons.inj h).2
      rw [partOf, if_neg hne] at hc
      cases hc

/-- What is written denotes the text. -/
theorem Writes.value (h : ∀ p, Writes q p (write p)) (v : Text) :
    value? false (v.map fun p => partOf p (write p)) = some v.units := by
  refine (value?_iff (decoded_partOf v)).2 fun c hc => ?_
  obtain ⟨p, -, hp⟩ := List.mem_map.1 hc
  exact (h p).breaks_eq_false hp

theorem eq_of_partOf {c : Point} (h : partOf p w = .raw c) : p = c := by
  unfold partOf at h
  split at h
  · exact Part.raw.inj h
  · cases h

/-- Only a backslash is written as an escaped backslash. -/
theorem Writes.eq_slash {m : Meaning} (h : Writes q p w)
    (hp : partOf p w = .escape [.scalar '\\'] m) : p = .scalar '\\' := by
  cases h with
  | raw =>
      rw [partOf, if_pos rfl] at hp
      cases hp
  | @escape e he =>
      unfold partOf at hp
      split at hp
      · cases hp
      · obtain ⟨rfl, rfl⟩ : e = [.scalar '\\'] ∧ .text [p] = m := by simpa using hp
        have hread := escapeAt_of_escape (he []) (by simp)
        have hslash : escapeAt [.scalar '\\'] = .ok ([.scalar '\\'], 1) := rfl
        rw [List.append_nil, hslash] at hread
        simpa [Part.outcome, Except.map, eq_comm] using hread

/-- A backslash is written twice, a digit as itself. -/
structure KeepsDigits (write : Point → Text) : Prop where
  slash : write (.scalar '\\') = [.scalar '\\', .scalar '\\']
  digit : ∀ c : Char, c.isDigit = true → write (.scalar c) = [.scalar c]

theorem mistakable_iff (h : ∀ p, Writes q p (write p)) (hw : KeepsDigits write) (v : Text) :
    Mistakable (v.map fun p => partOf p (write p))
      ↔ ∃ d : Char, d.isDigit = true ∧ octalZero d <:+: v := by
  constructor
  · rintro ⟨m, d, hd, hin⟩
    obtain ⟨l, hl, heq⟩ := List.infix_map_iff.1 hin
    obtain ⟨a, l, rfl, ha, heq⟩ := List.map_eq_cons_iff.1 heq.symm
    obtain ⟨b, l, rfl, hb, heq⟩ := List.map_eq_cons_iff.1 heq
    obtain ⟨c, l, rfl, hc, heq⟩ := List.map_eq_cons_iff.1 heq
    obtain rfl := List.map_eq_nil_iff.1 heq
    obtain rfl := (h a).eq_slash ha
    obtain rfl := eq_of_partOf hb
    obtain rfl := eq_of_partOf hc
    exact ⟨d, hd, hl⟩
  · rintro ⟨d, hd, hin⟩
    refine ⟨.text [.scalar '\\'], d, hd, ?_⟩
    have hmap := hin.map fun p => partOf p (write p)
    rwa [octalZero, List.map_cons, List.map_cons, List.map_cons, List.map_nil, hw.slash,
      hw.digit '0' rfl, hw.digit d hd, partOf, partOf, partOf, if_neg (by decide),
      if_pos rfl, if_pos rfl] at hmap

end Writing

-- ================================================================ quotes

section Quotes

variable {q p : Point} {v w t : Text} {c : Char}

/-- What a point is written as between single quotes. -/
def singlePoint (p : Point) : Text :=
  if p.is '"' then [p] else if p.is '\'' then ofString "\\'" else escapePoint p

theorem hexText_control (n : Fin 32) :
    hexValue? (ofChars (hexText 4 n)) = some n.val ∧ (hexText 4 n).length = 4
      ∧ '"' ∉ hexText 4 n ∧ '\'' ∉ hexText 4 n := by
  decide +revert

theorem escapePoint_writes (p : Point) : Writes (.scalar '"') p (escapePoint p) := by
  cases p with
  | surrogate n => exact .raw (by simp) (by simp) rfl
  | scalar c =>
      unfold escapePoint
      dsimp only
      split
      · exact .escape fun _ => .itself_of_not_mem (by decide)
      · exact .escape fun _ => .itself_of_not_mem (by decide)
      · exact .escape fun _ => .control (by decide)
      · exact .escape fun _ => .control (by decide)
      · exact .escape fun _ => .control (by decide)
      · exact .escape fun _ => .control (by decide)
      · exact .escape fun _ => .control (by decide)
      · next hquote hslash hlf hcr _ _ _ =>
          split
          · next hc =>
              obtain ⟨hvalue, hlen, -⟩ := hexText_control ⟨c.toNat, hc⟩
              refine .escape fun _ => .unit ?_ hvalue
              exact (List.length_map ..).trans hlen
          · exact .raw (by simpa using hslash) (by simpa using hquote)
              (by simpa [breaks, Point.is] using ⟨hcr, hlf⟩)

theorem Writes.requoted (h : Writes (.scalar '"') p w) (hp : p ≠ .scalar '\'') :
    Writes (.scalar '\'') p w := by
  cases h with
  | raw hslash _ hb => exact .raw hslash hp hb
  | escape he => exact .escape he

theorem singlePoint_writes (p : Point) : Writes (.scalar '\'') p (singlePoint p) := by
  unfold singlePoint
  split
  · next hp =>
      obtain rfl : p = .scalar '"' := by simpa [Point.is] using hp
      exact .raw (by decide) (by decide) rfl
  · split
    · next hp =>
        obtain rfl : p = .scalar '\'' := by simpa [Point.is] using hp
        exact .escape fun _ => .itself_of_not_mem (by decide)
    · next hp =>
        exact (escapePoint_writes p).requoted (by simpa [Point.is] using hp)

theorem eq_zero_or_positive (h : c.isDigit = true) : c = '0' ∨ c ∈ positiveDigits := by
  have hlow : 48 ≤ c.toNat ∧ c.toNat ≤ 57 := Char.isDigit_iff_toNat.1 h
  by_cases hc : c = '0'
  · exact Or.inl hc
  · have hne : c.toNat ≠ 48 := fun h0 => hc (Char.toNat_inj.1 h0)
    exact Or.inr (mem_positiveDigits (show 49 ≤ c.toNat by omega) hlow.2)

theorem keepsDigits_escapePoint : KeepsDigits escapePoint where
  slash := rfl
  digit := by
    intro c hc
    have hall : ∀ d ∈ '0' :: positiveDigits, escapePoint (.scalar d) = [.scalar d] :=
      List.all_iff_forall_prop.1 (by decide)
    exact hall c (List.mem_cons.2 (eq_zero_or_positive hc))

theorem keepsDigits_singlePoint : KeepsDigits singlePoint where
  slash := rfl
  digit := by
    intro c hc
    have hall : ∀ d ∈ '0' :: positiveDigits, singlePoint (.scalar d) = [.scalar d] :=
      List.all_iff_forall_prop.1 (by decide)
    exact hall c (List.mem_cons.2 (eq_zero_or_positive hc))

/-- All but single quotes and escaped double quotes is kept. -/
theorem requote_cons {r : Text} (hp : p ≠ .scalar '\'')
    (hr : r.head? ≠ some (.scalar '"')) : requote (p :: r) = p :: requote r := by
  have hsingle : p.is '\'' = false := by simpa [Point.is] using hp
  cases r with
  | nil => simp [requote, hsingle]
  | cons s r =>
      have hpair : (p.is '\\' && s.is '"') = false := by
        have hs : s.is '"' = false := by simpa [Point.is] using hr
        rw [hs, Bool.and_false]
      rw [requote, hpair, hsingle]
      rfl

theorem requote_append (hw : ∀ p ∈ w, p ≠ .scalar '"' ∧ p ≠ .scalar '\'')
    (ht : t.head? ≠ some (.scalar '"')) : requote (w ++ t) = w ++ requote t := by
  induction w with
  | nil => rfl
  | cons p w ih =>
      rw [List.forall_mem_cons] at hw
      have hhead : (w ++ t).head? ≠ some (.scalar '"') := by
        cases w with
        | nil => exact ht
        | cons s w => simpa using (hw.2 s List.mem_cons_self).1
      rw [List.cons_append, requote_cons hw.1.2 hhead, ih hw.2, List.cons_append]

/-- What is written for a point holds no quotes, except for the quotes. -/
theorem not_quote_of_mem_escapePoint (hd : p ≠ .scalar '"') (hs : p ≠ .scalar '\'') :
    ∀ r ∈ escapePoint p, r ≠ .scalar '"' ∧ r ≠ .scalar '\'' := by
  cases p with
  | surrogate n => simp [escapePoint]
  | scalar c =>
      unfold escapePoint
      dsimp only
      split
      · exact absurd rfl hd
      · decide
      · decide
      · decide
      · decide
      · decide
      · decide
      · split
        · next hc =>
            intro r hr
            rcases List.mem_append.1 hr with hr | hr
            · have hall : ∀ r ∈ ofString "\\u", r ≠ .scalar '"' ∧ r ≠ .scalar '\'' := by
                decide
              exact hall r hr
            · obtain ⟨x, hx, rfl⟩ := List.mem_map.1 hr
              obtain ⟨-, -, hdouble, hsingle⟩ := hexText_control ⟨c.toNat, hc⟩
              exact ⟨fun h => hdouble (Point.scalar.inj h ▸ hx),
                fun h => hsingle (Point.scalar.inj h ▸ hx)⟩
        · exact List.forall_mem_singleton.2 ⟨hd, hs⟩

theorem head?_escape (v : Text) : (escape v).head? ≠ some (.scalar '"') := by
  cases v with
  | nil => simp [escape]
  | cons p v =>
      have hp := escapePoint_writes p
      rw [escape, List.flatMap_cons]
      generalize escapePoint p = w at hp
      cases hp with
      | raw _ hq => simpa using hq
      | escape => simp

/-- For single quotes, the body for double quotes is written anew point by
point. -/
theorem requote_escape (v : Text) : requote (escape v) = v.flatMap singlePoint := by
  induction v with
  | nil => rfl
  | cons p v ih =>
      have hhead := head?_escape v
      have hcons : escape (p :: v) = escapePoint p ++ escape v := List.flatMap_cons
      rw [List.flatMap_cons, ← ih, hcons]
      unfold singlePoint
      split
      · next hp =>
          obtain rfl : p = .scalar '"' := by simpa [Point.is] using hp
          rfl
      · split
        · next hp =>
            obtain rfl : p = .scalar '\'' := by simpa [Point.is] using hp
            show requote (.scalar '\'' :: escape v) = _
            cases escape v <;> rfl
        · next hd hs =>
            exact requote_append (not_quote_of_mem_escapePoint (by simpa [Point.is] using hd)
              (by simpa [Point.is] using hs)) hhead

end Quotes

-- =================================================================== built

/-- What a point is written as between the given quotes. -/
def writePoint (quote : Char) : Point → Text :=
  if quote = '\'' then singlePoint else escapePoint

theorem writePoint_writes {quote : Char} (hquote : quote = '"' ∨ quote = '\'') (p : Point) :
    Writes (.scalar quote) p (writePoint quote p) := by
  rcases hquote with rfl | rfl
  · exact escapePoint_writes p
  · exact singlePoint_writes p

theorem keepsDigits_writePoint (quote : Char) : KeepsDigits (writePoint quote) := by
  unfold writePoint
  split
  · exact keepsDigits_singlePoint
  · exact keepsDigits_escapePoint

/-- A literal that is built has its body between two quotes. -/
theorem quoted_shape {quote : Char} (hquote : quote = '"' ∨ quote = '\'') (v : Text) :
    (Build.quoted v (String.singleton quote)).code
        = .scalar quote :: (v.flatMap (writePoint quote) ++ [.scalar quote])
      ∧ (Build.quoted v (String.singleton quote)).children.any
        (·.is .templateSubstitution) = false := by
  have hbody : (if String.singleton quote == "'" then v.escape.requote else v.escape)
      = v.flatMap (writePoint quote) := by
    rcases hquote with rfl | rfl
    · rfl
    · exact requote_escape v
  unfold Build.quoted
  rw [hbody]
  cases v.flatMap (writePoint quote) with
  | nil => rcases hquote with rfl | rfl <;> decide
  | cons p t =>
      constructor
      · rcases hquote with rfl | rfl <;>
          simp [Node.branch, Node.token, Node.leaf, Node.code, Node.codeAll, ofString, ofChars]
      · rcases hquote with rfl | rfl <;> rfl

/-- A literal that is built between double or single quotes denotes the
text that it is built for: it ends with its only unescaped quote, and the
value of its body is the text. The text is read back from it, except when
it holds a backslash, a zero and a digit in a row: then nothing is. -/
theorem quoted_denotes {quote : Char} (hquote : quote = '"' ∨ quote = '\'') (v : Text) :
    ∃ body parts, (Build.quoted v (String.singleton quote)).code
        = .scalar quote :: (body ++ [.scalar quote])
      ∧ Reading (.scalar quote) body parts ∧ value? false parts = some v.units
      ∧ ((Build.quoted v (String.singleton quote)).stringValue = .ok (some v)
        ↔ ∀ d : Char, d.isDigit = true → ¬ [.scalar '\\', .scalar '0', .scalar d] <:+: v)
      ∧ ((Build.quoted v (String.singleton quote)).stringValue = .ok none
        ↔ ∃ d : Char, d.isDigit = true
          ∧ [.scalar '\\', .scalar '0', .scalar d] <:+: v) := by
  have hwrites := writePoint_writes hquote
  have hread := Writes.reading hwrites v
  obtain ⟨hcode, hsub⟩ := quoted_shape hquote v
  refine ⟨_, _, hcode, hread, Writes.value hwrites v, ?_⟩
  have hzero : ¬ HasOctalZero (v.map fun p => partOf p (writePoint quote p)) := by
    intro hzero
    obtain ⟨p, -, hp⟩ := List.mem_map.1 hzero
    have hok := outcome_partOf (p := p) (w := writePoint quote p)
    rw [hp] at hok
    cases hok
  have hfound := (or_iff_right hzero).trans
    (mistakable_iff hwrites (keepsDigits_writePoint quote) v)
  by_cases h : ∃ d : Char, d.isDigit = true ∧ octalZero d <:+: v
  · rw [Node.stringValue_refused rfl hsub hcode hread (hfound.2 h)]
    refine ⟨iff_of_false nofun fun hno => ?_, iff_of_true rfl h⟩
    obtain ⟨d, hd, hin⟩ := h
    exact hno d hd hin
  · rw [Node.stringValue_decoded rfl hsub hcode hread (hfound.not.2 h), decoded_partOf]
    exact ⟨iff_of_true rfl fun d hd hin => h ⟨d, hd, hin⟩, iff_of_false nofun h⟩

/-- Quotes, a control character, a backslash in front of a quote and half of
a surrogate pair, between single quotes. -/
theorem quoted_denotes_mixed :
    let v : Text := ofString "\\'\"\x07\\" ++ [.surrogate 5]
    ('\'' = '"' ∨ '\'' = '\'')
      ∧ ∃ body parts, (Build.quoted v (String.singleton '\'')).code
          = .scalar '\'' :: (body ++ [.scalar '\''])
        ∧ Reading (.scalar '\'') body parts ∧ value? false parts = some v.units
        ∧ ((Build.quoted v (String.singleton '\'')).stringValue = .ok (some v)
          ↔ ∀ d : Char, d.isDigit = true → ¬ [.scalar '\\', .scalar '0', .scalar d] <:+: v)
        ∧ ((Build.quoted v (String.singleton '\'')).stringValue = .ok none
          ↔ ∃ d : Char, d.isDigit = true
            ∧ [.scalar '\\', .scalar '0', .scalar d] <:+: v) := by
  intro v
  exact ⟨Or.inr rfl, quoted_denotes (Or.inr rfl) v⟩

/-- A backslash before `01` is written as a literal that denotes it, and no
value is read back. -/
theorem quoted_not_read_back :
    let v : Text := ofString "\\01"
    (Build.quoted v "\"").code = ofString "\"\\\\01\""
      ∧ (Build.quoted v "\"").stringValue = .ok none
      ∧ ¬ ∀ w, (Build.quoted w "\"").stringValue = .ok (some w) := by
  have hnone : (Build.quoted (ofString "\\01") "\"").stringValue = .ok none := by decide
  refine ⟨by decide, hnone, fun hall => ?_⟩
  have hread := hall (ofString "\\01")
  rw [hnone] at hread
  cases hread

end Codemod
