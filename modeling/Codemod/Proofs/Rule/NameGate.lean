/-
The gates that names pass.

Before a name goes into the program or into a call of the document, its
text passes a gate: one token, one event, an id, a property, a style. But
for a line feed at its end, what passes is there and free of white space
(`AdmitsName.passesGate`); a gate does not look behind the last line. So a
name that is admitted is clean, unless it ends in a line feed or contains
a byte order mark (`Text.PassesGate.isClean_iff`). A property besides is a
name of the language, unless it contains a number that is no digit
(`isName_iff`), and is read back as one word (`readsAsWord_iff`), where
what follows in the program does not go on with the name.

Main statement: `Rules.admittedNames_clean_iff`.
-/
import Mathlib.Data.List.TakeWhile
import Codemod.Proofs.Parse.Word
import Codemod.Proofs.Rule.Callers

namespace Codemod

-- ================================================================= feeds

namespace Text

variable {t : Text}

/-- The text ends in a line feed. -/
def EndsInFeed (t : Text) : Prop := t.getLast? = some (.scalar '\n')

instance : Decidable t.EndsInFeed :=
  inferInstanceAs (Decidable (t.getLast? = some (.scalar '\n')))

theorem withoutFinalNewline_eq (h : ¬ t.EndsInFeed) : t.withoutFinalNewline = t := by
  rw [withoutFinalNewline, if_neg (by simpa [EndsInFeed] using h)]

theorem eq_append_of_endsInFeed (h : t.EndsInFeed) :
    t = t.withoutFinalNewline ++ [.scalar '\n'] := by
  obtain ⟨u, rfl⟩ := List.getLast?_eq_some_iff.1 h
  rw [withoutFinalNewline, if_pos (by simp), List.dropLast_concat]

-- ================================================================= gates

/-- But for a line feed at the end there is something, and it is no white
space. -/
def PassesGate (t : Text) : Prop :=
  t.withoutFinalNewline ≠ [] ∧ ∀ p ∈ t.withoutFinalNewline, p.isBlank = false

theorem PassesGate.of_cons {p : Point} {ps : Text} (h : t.withoutFinalNewline = p :: ps)
    (hp : p.isBlank = false) (hps : ∀ q ∈ ps, q.isBlank = false) : t.PassesGate := by
  rw [PassesGate, h]
  exact ⟨List.cons_ne_nil _ _, List.forall_mem_cons.2 ⟨hp, hps⟩⟩

/-- Where nothing is white space but perhaps a line feed at the end, a text
is clean without it, and without byte order marks. -/
theorem PassesGate.isClean_iff (h : t.PassesGate) :
    t ≠ [] ∧ (t.IsClean ↔ ¬ t.EndsInFeed ∧ ∀ p ∈ t, p.code ≠ 0xFEFF) := by
  obtain ⟨hne, hblank⟩ := h
  by_cases hfeed : t.EndsInFeed
  · have hmem : Point.scalar '\n' ∈ t := by
      rw [eq_append_of_endsInFeed hfeed]
      exact List.mem_append_right _ (List.mem_singleton.2 rfl)
    refine ⟨List.ne_nil_of_mem hmem, iff_of_false ?_ fun h => h.1 hfeed⟩
    intro hclean
    exact absurd (hclean.2 _ hmem) (by decide)
  · rw [withoutFinalNewline_eq hfeed] at hne hblank
    refine ⟨hne, ⟨fun hclean => ⟨hfeed, fun p hp => ?_⟩, fun h => ⟨hne, fun p hp => ?_⟩⟩⟩
    · have hspace := hclean.2 p hp
      simp only [Point.isSpace, Bool.or_eq_false_iff, beq_eq_false_iff_ne] at hspace
      exact hspace.2
    · simp [Point.isSpace, hblank p hp, h.2 p hp]

/-- A sign in front of a text does not change how it ends. -/
theorem withoutFinalNewline_tail {p : Point} {ps : Text} (hne : ps ≠ [])
    (h : t.withoutFinalNewline = p :: ps) : withoutFinalNewline (t.drop 1) = ps := by
  by_cases hfeed : t.EndsInFeed
  · rw [eq_append_of_endsInFeed hfeed, h]
    simp [withoutFinalNewline]
  · rw [withoutFinalNewline_eq hfeed] at h
    obtain rfl := h
    apply withoutFinalNewline_eq
    rwa [EndsInFeed, List.getLast?_cons_of_ne_nil hne] at hfeed

end Text

open Text

section Gates

variable {t : Text} {p : Point}

theorem not_isBlank_of_isAlpha (h : p.test Char.isAlpha = true) : p.isBlank = false :=
  Point.not_isBlank_of_isWord (Point.isWord_of_isAlpha h)

theorem not_isBlank_of_is {c : Char} (h : p.is c = true)
    (hc : 0x21 ≤ c.toNat ∧ c.toNat ≤ 0x7E) : p.isBlank = false := by
  rw [Point.eq_of_is h]
  exact Point.not_isBlank_of_isAscii hc.1 hc.2

theorem not_isBlank_of_isNameByte (h : isNameByte p = true) : p.isBlank = false := by
  rw [isNameByte, Bool.or_eq_true] at h
  rcases h with h | h
  · obtain ⟨c, rfl, hc⟩ := Point.exists_of_test h
    simp only [Char.isAlphanum, Bool.or_eq_true, beq_iff_eq] at hc
    rcases hc with (hc | hc) | rfl
    · exact not_isBlank_of_isAlpha hc
    · simp only [Char.isDigit, Bool.and_eq_true, decide_eq_true_eq, ge_iff_le,
        UInt32.le_iff_toNat_le] at hc
      have hlo : 0x30 ≤ (Point.scalar c).code := hc.1
      have hhi : (Point.scalar c).code ≤ 0x39 := hc.2
      exact Point.not_isBlank_of_isAscii (by omega) (by omega)
    · exact not_isBlank_of_is (beq_self_eq_true _) (by decide)
  · exact not_isBlank_of_is h (by decide)

theorem passesGate_of_isSingleToken (h : isSingleToken t = true) : t.PassesGate := by
  simp only [isSingleToken, Bool.and_eq_true, Bool.not_eq_true', List.isEmpty_eq_false_iff,
    List.all_eq_true] at h
  exact h

theorem passesGate_of_isEventName (h : isEventName t = true) : t.PassesGate := by
  unfold isEventName at h
  split at h
  · next p ps hps =>
    rw [Bool.and_eq_true, List.all_eq_true] at h
    refine .of_cons hps (not_isBlank_of_isAlpha h.1) fun q hq => ?_
    have hq := h.2 q hq
    rw [Bool.or_eq_true, Bool.or_eq_true] at hq
    rcases hq with (hq | hq) | hq
    · exact Point.not_isBlank_of_isWord hq
    · exact not_isBlank_of_is hq (by decide)
    · exact not_isBlank_of_is hq (by decide)
  · cases h

theorem isIdSelector_parts (h : isIdSelector t = true) :
    ∃ p ps, t.withoutFinalNewline = p :: ps ∧ p.is '#' = true ∧ ps ≠ []
      ∧ ∀ q ∈ ps, isNameByte q = true := by
  unfold isIdSelector at h
  split at h
  · next p ps hps =>
    simp only [Bool.and_eq_true, Bool.not_eq_true', List.isEmpty_eq_false_iff,
      List.all_eq_true] at h
    exact ⟨p, ps, hps, h.1.1, h.1.2, h.2⟩
  · cases h

theorem passesGate_of_isIdSelector (h : isIdSelector t = true) : t.PassesGate := by
  obtain ⟨p, ps, hps, hp, -, hname⟩ := isIdSelector_parts h
  exact .of_cons hps (not_isBlank_of_is hp (by decide))
    fun q hq => not_isBlank_of_isNameByte (hname q hq)

/-- The id behind the sign passes as well. -/
theorem passesGate_drop_of_isIdSelector (h : isIdSelector t = true) :
    PassesGate (t.drop 1) := by
  obtain ⟨p, ps, hps, -, hne, hname⟩ := isIdSelector_parts h
  rw [PassesGate, withoutFinalNewline_tail hne hps]
  exact ⟨hne, fun q hq => not_isBlank_of_isNameByte (hname q hq)⟩

theorem isPropertyName_parts (h : Rules.isPropertyName t = true) :
    ∃ p ps, t.withoutFinalNewline = p :: ps
      ∧ (p.test Char.isAlpha || p.is '_' || p.is '$') = true
      ∧ ∀ q ∈ ps, q.isWord = true ∨ q.is '$' = true := by
  unfold Rules.isPropertyName at h
  split at h
  · next p ps hps =>
    rw [Bool.and_eq_true, List.all_eq_true] at h
    exact ⟨p, ps, hps, h.1, fun q hq => Bool.or_eq_true_iff.1 (h.2 q hq)⟩
  · cases h

theorem passesGate_of_isPropertyName (h : Rules.isPropertyName t = true) : t.PassesGate := by
  obtain ⟨p, ps, hps, hp, hname⟩ := isPropertyName_parts h
  refine .of_cons hps ?_ fun q hq => ?_
  · rw [Bool.or_eq_true, Bool.or_eq_true] at hp
    rcases hp with (hp | hp) | hp
    · exact not_isBlank_of_isAlpha hp
    · exact not_isBlank_of_is hp (by decide)
    · exact not_isBlank_of_is hp (by decide)
  · rcases hname q hq with hq | hq
    · exact Point.not_isBlank_of_isWord hq
    · exact not_isBlank_of_is hq (by decide)

theorem isNameByte_of_isAlphanum (h : p.test Char.isAlphanum = true) :
    isNameByte p = true := by
  obtain ⟨c, rfl, hc⟩ := Point.exists_of_test h
  simp [isNameByte, Point.isAsciiWord, Point.test, hc]

theorem passesGate_of_isStyleName (h : Rules.isStyleName t = true) : t.PassesGate := by
  simp only [Rules.isStyleName] at h
  split at h
  · next p ps hps =>
    simp only [Bool.and_eq_true, List.all_eq_true] at h
    have hsplit : t.withoutFinalNewline.takeWhile (·.is '-') ++ p :: ps
        = t.withoutFinalNewline := by
      rw [← hps, List.takeWhile_append_dropWhile]
    rw [PassesGate, ← hsplit]
    refine ⟨by simp, List.forall_mem_append.2 ⟨fun q hq => ?_, ?_⟩⟩
    · have hdash : q.is '-' = true :=
        List.mem_takeWhile_imp (p := fun x : Point => x.is '-') hq
      exact not_isBlank_of_is hdash (by decide)
    · refine List.forall_mem_cons.2 ⟨not_isBlank_of_isAlpha h.1.2, fun q hq => ?_⟩
      rcases Bool.or_eq_true_iff.1 (h.2 q hq) with hq | hq
      · exact not_isBlank_of_isNameByte (isNameByte_of_isAlphanum hq)
      · exact not_isBlank_of_is hq (by decide)
  · cases h

end Gates

-- ============================================================ properties

section Properties

variable {t : Text}

theorem startsName_of_start {p : Point}
    (h : (p.test Char.isAlpha || p.is '_' || p.is '$') = true) : p.startsName = true := by
  rw [Bool.or_eq_true, Bool.or_eq_true] at h
  rcases h with (h | h) | h
  · exact Point.startsName_of_isAlpha h
  · simp [Point.startsName, h]
  · simp [Point.startsName, h]

/-- A property's name is a name of the language, unless a line feed ends
it or it contains a number that is no digit. -/
theorem isName_iff (h : Rules.isPropertyName t = true) :
    t.isName = true ↔ ¬ t.EndsInFeed ∧ ∀ p ∈ t, p.isStray = false := by
  obtain ⟨p, ps, hps, hp, hname⟩ := isPropertyName_parts h
  have hstart := startsName_of_start hp
  by_cases hfeed : t.EndsInFeed
  · refine iff_of_false ?_ fun h => h.1 hfeed
    rw [eq_append_of_endsInFeed hfeed, hps]
    have hend : Point.continuesName (.scalar '\n') = false := by
      set_option maxRecDepth 8000 in decide
    simp [Text.isName, hend]
  · rw [withoutFinalNewline_eq hfeed] at hps
    rw [hps, Text.isName, hstart, Bool.true_and, List.all_eq_true]
    constructor
    · intro hall
      refine ⟨hps ▸ hfeed, List.forall_mem_cons.2 ⟨?_, fun q hq => ?_⟩⟩
      · exact Point.not_isStray_of_startsName hstart
      · exact (Point.continuesName_iff (hname q hq)).1 (hall q hq)
    · intro hall q hq
      exact (Point.continuesName_iff (hname q hq)).2 (hall.2 q (List.mem_cons_of_mem _ hq))

/-- It is read back as one word, unless a line feed ends it. -/
theorem readsAsWord_iff (h : Rules.isPropertyName t = true) :
    t.ReadsAsWord ↔ ¬ t.EndsInFeed := by
  obtain ⟨p, ps, hps, hp, hname⟩ := isPropertyName_parts h
  have hword : t.withoutFinalNewline.IsWord := hps ▸ isWord_cons hp hname
  by_cases hfeed : t.EndsInFeed
  · refine iff_of_false ?_ fun h => h hfeed
    rw [eq_append_of_endsInFeed hfeed]
    exact hword.not_readsAsWord_feed
  · rw [withoutFinalNewline_eq hfeed] at hword
    exact iff_of_true hword.readsAsWord hfeed

/-- There is nothing wrong with the name. -/
def IsPlainProperty (t : Text) : Prop :=
  Rules.isPropertyName t = true ∧ ¬ t.EndsInFeed ∧ ∀ p ∈ t, p.isStray = false

theorem propertySpelling_cases (t : Text) :
    Rules.propertySpelling t = t
      ∨ IsPlainProperty t ∧ IsPlainProperty (Rules.propertySpelling t) := by
  have hrows : (Rules.propertySpellings.all fun row =>
      [Text.ofString row.1, Text.ofString row.2].all fun u => Rules.isPropertyName u
        && u.getLast? != some (.scalar '\n') && u.all fun p => !p.isStray) = true := by
    decide
  unfold Rules.propertySpelling
  split
  · next k v hv =>
    right
    have hrow := List.all_eq_true.1 hrows _ (List.mem_of_find?_eq_some hv)
    have hfound := List.find?_some hv
    obtain rfl : Text.ofString k = t := eq_of_beq hfound
    simpa [IsPlainProperty, EndsInFeed, and_assoc] using hrow
  · exact Or.inl rfl

theorem isName_propertySpelling_iff (h : Rules.isPropertyName t = true) :
    isName (Rules.propertySpelling t) = true
      ↔ ¬ t.EndsInFeed ∧ ∀ p ∈ t, p.isStray = false := by
  rcases propertySpelling_cases t with heq | ⟨ht, hspelling⟩
  · rw [heq, isName_iff h]
  · exact iff_of_true ((isName_iff hspelling.1).2 hspelling.2) ht.2

theorem readsAsWord_propertySpelling_iff (h : Rules.isPropertyName t = true) :
    ReadsAsWord (Rules.propertySpelling t) ↔ ¬ t.EndsInFeed := by
  rcases propertySpelling_cases t with heq | ⟨ht, hspelling⟩
  · rw [heq, readsAsWord_iff h]
  · exact iff_of_true ((readsAsWord_iff hspelling.1).2 hspelling.2.1) ht.2.1

end Properties

-- ============================================================= admission

/-- The gates and the names that they admit. -/
inductive AdmitsName (c : Cursor) : Text → Prop where
  | token {t : Text} : c.singleToken? = .ok (some t) → AdmitsName c t
  | event {t : Text} : c.node.stringValue = .ok (some t) → c.namesEvent = .ok true →
      AdmitsName c t
  | selector {t name : Text} : c.node.stringValue = .ok (some t) →
      c.idSelector? = .ok (some name) → AdmitsName c t
  | id {name : Text} : c.idSelector? = .ok (some name) → AdmitsName c name
  | property {t : Text} : c.node.stringValue = .ok (some t) →
      Rules.isPropertyName t = true → AdmitsName c t
  | style {t : Text} : c.node.stringValue = .ok (some t) →
      Rules.isStyleName t = true → AdmitsName c t

theorem AdmitsName.passesGate {c : Cursor} {t : Text} (h : AdmitsName c t) :
    t.PassesGate := by
  cases h with
  | token h =>
    obtain ⟨v, -, h⟩ := bind_eq_ok.1 h
    exact passesGate_of_isSingleToken (Option.filter_eq_some_iff.1 (pure_eq_ok.1 h)).2
  | event hv h =>
    obtain ⟨v, hv', h⟩ := bind_eq_ok.1 h
    obtain rfl : some t = v := Except.ok.inj (hv.symm.trans hv')
    obtain ⟨u, hu⟩ := Option.isSome_iff_exists.1 (pure_eq_ok.1 h)
    obtain ⟨heq, hname⟩ := Option.filter_eq_some_iff.1 hu
    obtain rfl := Option.some.inj heq
    exact passesGate_of_isEventName hname
  | selector hv h =>
    obtain ⟨u, hu, hid, -⟩ := idSelector?_eq_some h
    obtain rfl : t = u := Option.some.inj (Except.ok.inj (hv.symm.trans hu))
    exact passesGate_of_isIdSelector hid
  | id h =>
    obtain ⟨u, -, hid, rfl⟩ := idSelector?_eq_some h
    exact passesGate_drop_of_isIdSelector hid
  | property _ h => exact passesGate_of_isPropertyName h
  | style _ h => exact passesGate_of_isStyleName h

-- =============================================================== program

/-- What is written is the named property of something, or gives it a
value. -/
def Rewrite.SpellsProperty (r : Rewrite) (name : Text) : Prop :=
  ∃ before after, r.new.code = before ++ .scalar '.' :: (name ++ after)
    ∧ (after = [] ∨ ∃ value, after = ofString " = " ++ value)

namespace Build

theorem code_member (o : Node) (name : Text) :
    (member o name).code
      = (operand o .memberExpression .object).code ++ .scalar '.' :: name := by
  have hdot : (Node.token ".").code = [.scalar '.'] := rfl
  have hname : (propertyIdentifier name).code = name := rfl
  rw [member, memberNode, if_neg Bool.false_ne_true, Node.code_branch, Node.codeAll_cons,
    Node.codeAll_cons, Node.codeAll_singleton, Node.render, inRole, inRole, Node.code_placed,
    Node.code_placed, hdot, hname]
  rfl

theorem code_assignment (left right : Node) :
    (assignment left right).code = left.code ++ (ofString " = " ++ right.code) := by
  have hsign : (Node.token "=").code = [.scalar '='] := rfl
  rw [assignment, assignmentWith, if_pos (by decide), Node.code_branch, Node.codeAll_cons,
    Node.codeAll_cons, Node.codeAll_singleton, Node.render, inRole, spaced, spacedToken,
    Node.code_placed, Node.code_placed, Node.code_placed, hsign]
  rfl

end Build

theorem Rewrite.SpellsProperty.of_member {r : Rewrite} {name : Text} {target : Node}
    (h : r.new = Build.member target name) : r.SpellsProperty name := by
  rw [SpellsProperty, h, Build.code_member]
  exact ⟨_, [], by rw [List.append_nil], Or.inl rfl⟩

theorem Rewrite.SpellsProperty.of_assignment {r : Rewrite} {name : Text}
    {target value : Node} (h : r.new = Build.assignment (Build.member target name) value) :
    r.SpellsProperty name := by
  rw [SpellsProperty, h, Build.code_assignment, Build.code_member]
  refine ⟨(Build.operand target .memberExpression .object).code,
    ofString " = " ++ value.code, ?_, Or.inr ⟨value.code, rfl⟩⟩
  rw [List.append_assoc, List.cons_append]

namespace Rules

variable {context : RuleContext} {w : Workspace} {r : Rewrite}

/-- A rule that rewrites has a name that passes the gate. -/
theorem gate_eq_ok {c : Cursor} {gate : Text → Bool} {f : Text → Check (Option Node)}
    {new : Node}
    (h : (c.node.stringValue >>= fun v =>
      match v.filter gate with
      | none => pure none
      | some t => f t) = .ok (some new)) :
    ∃ t, c.node.stringValue = .ok (some t) ∧ gate t = true ∧ f t = .ok (some new) := by
  obtain ⟨v, hv, h⟩ := bind_eq_ok.1 h
  split at h
  · simp [pure_eq_ok] at h
  · next t ht =>
    obtain ⟨rfl, hgate⟩ := Option.filter_eq_some_iff.1 ht
    exact ⟨t, hv, hgate, h⟩

/-- A property is written for a name that passes its gate. -/
theorem prop_spec (h : r ∈ prop.rewrites context w) :
    ∃ c rest t, r.site.arguments = c :: rest ∧ c.node.stringValue = .ok (some t)
      ∧ isPropertyName t = true ∧ r.SpellsProperty (propertySpelling t) := by
  obtain ⟨s, hs, h⟩ := replacement_of_mem_rewritesOfSweeps h
  obtain rfl := List.mem_singleton.1 hs
  obtain ⟨m, name, -, h⟩ := Sweep.ofMethods_spec h
  split at h
  · simp [pure_eq_ok] at h
  · next c rest hargs =>
    split at h
    · simp [pure_eq_ok] at h
    · obtain ⟨t, ht, hname, h⟩ := gate_eq_ok h
      refine ⟨c, rest, t, hargs, ht, hname, ?_⟩
      obtain ⟨-, h⟩ := unless_eq_ok.1 h
      obtain ⟨target, -, h⟩ := bind_eq_ok.1 h
      cases target with
      | none => simp [pure_eq_ok] at h
      | some target =>
        simp only at h
        split at h
        · exact .of_assignment (some_eq_of_ok h).symm
        · exact .of_member (some_eq_of_ok h).symm

/-- A style is read or set for a name that passes its gate. -/
theorem css_spec (h : r ∈ css.rewrites context w) :
    ∃ c rest t, r.site.arguments = c :: rest ∧ c.node.stringValue = .ok (some t)
      ∧ isStyleName t = true := by
  obtain ⟨s, hs, h⟩ := replacement_of_mem_rewritesOfSweeps h
  obtain rfl := List.mem_singleton.1 hs
  obtain ⟨m, name, -, h⟩ := Sweep.ofMethods_spec h
  split at h
  · next c hargs =>
    obtain ⟨t, ht, hname, -⟩ := gate_eq_ok h
    exact ⟨c, [], t, hargs, ht, hname⟩
  · next c value hargs =>
    obtain ⟨t, ht, hname, -⟩ := gate_eq_ok h
    exact ⟨c, [value], t, hargs, ht, hname⟩
  · simp [pure_eq_ok] at h

/-- What the gates admit is there, and it is clean unless it ends in a
line feed or contains a byte order mark. The name of a style and that of a
property are admitted. The property is written with a dot in front of its
spelling; this is a name of the language unless what was admitted ends in
a line feed or contains a number that is no digit, and it is read back as
one word unless that ends in a line feed. -/
theorem admittedNames_clean_iff :
    (∀ {c t}, AdmitsName c t →
        t ≠ [] ∧ (t.IsClean ↔ ¬ t.EndsInFeed ∧ ∀ p ∈ t, p.code ≠ 0xFEFF))
      ∧ (∀ r ∈ css.rewrites context w, ∃ c rest t, r.site.arguments = c :: rest
        ∧ c.node.stringValue = .ok (some t) ∧ AdmitsName c t)
      ∧ ∀ r ∈ prop.rewrites context w, ∃ c rest t, r.site.arguments = c :: rest
        ∧ c.node.stringValue = .ok (some t) ∧ AdmitsName c t
        ∧ r.SpellsProperty (propertySpelling t)
        ∧ (isName (propertySpelling t) = true
          ↔ ¬ t.EndsInFeed ∧ ∀ p ∈ t, p.isStray = false)
        ∧ (ReadsAsWord (propertySpelling t) ↔ ¬ t.EndsInFeed) := by
  refine ⟨fun h => h.passesGate.isClean_iff, ?_, ?_⟩
  · intro r hr
    obtain ⟨c, rest, t, hargs, ht, hname⟩ := css_spec hr
    exact ⟨c, rest, t, hargs, ht, .style ht hname⟩
  · intro r hr
    obtain ⟨c, rest, t, hargs, ht, hname, hspells⟩ := prop_spec hr
    exact ⟨c, rest, t, hargs, ht, .property ht hname, hspells,
      isName_propertySpelling_iff hname, readsAsWord_propertySpelling_iff hname⟩

/-- A name that is spelled differently is admitted, clean, and read back
from where it is written. -/
theorem admittedNames_clean_for :
    ∃ n r c, parse (ofString "x = $(document.body).prop(\"for\");") = .ok n
      ∧ r ∈ prop.rewrites .default (.ofProgram n) ∧ c ∈ r.site.arguments
      ∧ AdmitsName c (ofString "for") ∧ IsClean (ofString "for")
      ∧ r.SpellsProperty (ofString "htmlFor")
      ∧ isName (ofString "htmlFor") = true ∧ ReadsAsWord (ofString "htmlFor") := by
  obtain ⟨n, hn, htest⟩ := exists_of_parse_any
    (ofString "x = $(document.body).prop(\"for\");")
    (fun n => (prop.rewrites .default (.ofProgram n)).any fun r =>
      decide (r.site.arguments.map (·.node.stringValue) = [.ok (some (ofString "for"))]))
    (by decide +kernel)
  obtain ⟨r, hr, htest⟩ := List.any_eq_true.1 htest
  rw [decide_eq_true_eq] at htest
  have hmain := @admittedNames_clean_iff .default (.ofProgram n)
  obtain ⟨c, rest, t, hargs, ht, hadmits, hspells, hname, hreads⟩ := hmain.2.2 r hr
  obtain rfl : t = ofString "for" := by
    rw [hargs, List.map_cons, ht] at htest
    exact Option.some.inj (Except.ok.inj (List.cons.inj htest).1)
  have hfeed : ¬ EndsInFeed (ofString "for") := by decide
  have hmarks : ∀ p ∈ ofString "for", p.code ≠ 0xFEFF := by decide
  have hplain : ∀ p ∈ ofString "for", p.isStray = false := by decide
  exact ⟨n, r, c, hn, hr, hargs ▸ List.mem_cons_self, hadmits,
    (hmain.1 hadmits).2.2 ⟨hfeed, hmarks⟩, hspells, hname.2 ⟨hfeed, hplain⟩, hreads.2 hfeed⟩

/-- A token with a line feed at its end is admitted; a property with a
superscript is written, which is no name; and a name is written right in
front of a keyword. -/
theorem admittedNames_unclean :
    (∃ n c t, parse (ofString "x = \"a\\n\";") = .ok n ∧ c ∈ (Cursor.top n).walk
        ∧ c.singleToken? = .ok (some t) ∧ ¬ t.IsClean)
      ∧ (∃ n r, parse (ofString "x = $(document.body).prop(\"a²\");") = .ok n
        ∧ r ∈ prop.rewrites .default (.ofProgram n)
        ∧ r.new.code = ofString "document.body.a²" ∧ isName (ofString "a²") = false)
      ∧ ∃ n, parse (ofString "x = $(document.body).prop(\"a\")in b;") = .ok n
        ∧ (prop.apply .default (.ofProgram n)).1.render
          = ofString "x = document.body.ain b;" := by
  refine ⟨?_, ?_, ?_⟩
  · obtain ⟨n, hn, htest⟩ := exists_of_parse_any (ofString "x = \"a\\n\";")
      (fun n => (Cursor.top n).walk.any fun c =>
        decide (c.singleToken? = .ok (some (ofString "a\n"))))
      (by decide +kernel)
    obtain ⟨c, hc, htest⟩ := List.any_eq_true.1 htest
    refine ⟨n, c, _, hn, hc, of_decide_eq_true htest, fun hclean => ?_⟩
    have hspace := hclean.2 (.scalar '\n') (by decide)
    exact absurd hspace (by decide)
  · obtain ⟨n, hn, htest⟩ := exists_of_parse_any
      (ofString "x = $(document.body).prop(\"a²\");")
      (fun n => (prop.rewrites .default (.ofProgram n)).any fun r =>
        r.new.code == ofString "document.body.a²")
      (by decide +kernel)
    obtain ⟨r, hr, htest⟩ := List.any_eq_true.1 htest
    exact ⟨n, r, hn, hr, eq_of_beq htest, by decide +kernel⟩
  · obtain ⟨n, hn, htest⟩ := exists_of_parse_any
      (ofString "x = $(document.body).prop(\"a\")in b;")
      (fun n => (prop.apply .default (.ofProgram n)).1.render
        == ofString "x = document.body.ain b;")
      (by decide +kernel)
    exact ⟨n, hn, eq_of_beq htest⟩

end Rules

end Codemod
