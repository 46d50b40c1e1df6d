/-
The classes that a literal names.

A class list is a row of tokens: what separates them is a space, a tab, a
line feed, a form feed or a carriage return, and a class list throws on a
token that is empty or holds one of these. `addRemoveClass` writes a
literal for each word of its argument (`addRemoveClass_spec`), and a word
ends at any white space. Each literal has the word for its value and is a
token (`isToken_of_mem_words`); but the words are the classes that the
argument names exactly if its value holds no other white space.

Main statement: `Rules.addRemoveClass_splits_iff`.
-/
import Codemod.Proofs.Rule.Callers
import Codemod.Proofs.Text.Run
import Codemod.Proofs.Tree.Literal

namespace Codemod

open Literal Text

-- ================================================================ values

/-- The node is a literal with the given units for its value: what stands
between its quotes is read as parts with this value. -/
def Node.HasValue (n : Node) (us : Units) : Prop :=
  ∃ quote body parts, n.code = quote :: (body ++ [quote]) ∧ Reading quote body parts
    ∧ value? (n.is .templateString) parts = some us

namespace Node

variable {n : Node} {v : Text} {us : Units}

/-- A literal that is built has the value that it is built for. -/
theorem hasValue_string (v : Text) : (Build.string v).HasValue v.units := by
  have hquote : '"' = '"' ∨ '"' = '\'' := Or.inl rfl
  have hwrites := writePoint_writes hquote
  obtain ⟨hcode, -⟩ := quoted_shape hquote v
  exact ⟨_, _, _, hcode, Writes.reading hwrites v, Writes.value hwrites v⟩

theorem literal_of_stringValue (h : n.stringValue = .ok (some v)) :
    n.isAny [.string, .templateString] = true
      ∧ n.children.any (·.is .templateSubstitution) = false := by
  unfold stringValue at h
  split at h
  · cases h
  · next hk =>
    split at h
    · cases h
    · next hsub => exact ⟨by simpa using hk, Bool.eq_false_iff.2 hsub⟩

/-- What is read from a literal is its value, but for how lines end. -/
theorem HasValue.relined (h : n.HasValue us) (hv : n.stringValue = .ok (some v)) :
    Relined v.units us := by
  obtain ⟨quote, body, parts, hcode, hread, hvalue⟩ := h
  obtain ⟨hk, hsub⟩ := literal_of_stringValue hv
  by_cases hfound : HasOctalZero parts ∨ Mistakable parts
  · rw [stringValue_refused hk hsub hcode hread hfound] at hv
    cases hv
  · rw [stringValue_decoded hk hsub hcode hread hfound] at hv
    cases hdecoded : decoded parts with
    | ok u =>
      rw [hdecoded] at hv
      obtain rfl : u = v := Option.some.inj (Except.ok.inj hv)
      exact relined_of_value? hdecoded hvalue
    | error r =>
      rw [hdecoded] at hv
      cases r <;> cases hv

end Node

-- ================================================================ tokens

/-- Separates two classes. -/
def separatesClasses (u : Nat) : Bool := [0x20, 0x9, 0xA, 0xC, 0xD].contains u

theorem isWhite_of_separatesClasses {u : Nat} (h : separatesClasses u = true) :
    isWhite u = true := by
  simp only [separatesClasses, List.contains_eq_mem, List.mem_cons, List.not_mem_nil,
    or_false, decide_eq_true_eq] at h
  rcases h with rfl | rfl | rfl | rfl | rfl <;> decide

/-- A class list takes the value for one class. -/
def IsClassToken (us : Units) : Prop := us ≠ [] ∧ ∀ u ∈ us, separatesClasses u = false

theorem isToken_of_mem_words {t : Text} {r : Units} (h : r ∈ t.words.map Text.units) :
    IsClassToken r := by
  obtain ⟨hne, hblank⟩ := (splitsInto_units t).of_mem r h
  refine ⟨hne, fun u hu => ?_⟩
  by_contra hsep
  rw [Bool.not_eq_false] at hsep
  have hwhite := hblank u hu
  rw [isWhite_of_separatesClasses hsep] at hwhite
  cases hwhite

theorem hasValue_words (t : Text) :
    List.Forall₂ Node.HasValue (t.words.map Build.string) (t.words.map Text.units) := by
  rw [List.forall₂_map_left_iff, List.forall₂_map_right_iff, List.forall₂_same]
  exact fun word _ => Node.hasValue_string word

-- =============================================================== program

namespace Rules

variable {context : RuleContext} {w : Workspace} {r : Rewrite}

/-- The argument is read, and a literal is written for each of its words,
of which there is one at least. -/
theorem addRemoveClass_spec (h : r ∈ addRemoveClass.rewrites context w) :
    ∃ c v target name, r.site.arguments = [c] ∧ c.node.stringValue = .ok (some v)
      ∧ v.words ≠ []
      ∧ r.new = Build.methodCall (classList target) name (v.words.map Build.string) := by
  obtain ⟨s, hs, h⟩ := replacement_of_mem_rewritesOfSweeps h
  obtain rfl := List.mem_singleton.1 hs
  obtain ⟨m, method, -, h⟩ := Sweep.ofMethods_spec h
  split at h
  · next c hargs =>
    obtain ⟨-, h⟩ := unless_eq_ok.1 h
    obtain ⟨v, hv, h⟩ := bind_eq_ok.1 h
    cases v with
    | none => simp [pure_eq_ok] at h
    | some v =>
      obtain ⟨hwords, h⟩ := unless_eq_ok.1 h
      obtain ⟨target, -, h⟩ := bind_eq_ok.1 h
      cases target with
      | none => simp [pure_eq_ok] at h
      | some target =>
        rw [List.isEmpty_eq_false_iff] at hwords
        exact ⟨c, v, target, _, hargs, hv, hwords, (some_eq_of_ok h).symm⟩
  · simp [pure_eq_ok] at h

/-- What is written for a call names classes by literals, of which a class
list takes each for one class. Where the argument is a literal with a
value, the values of these are the runs of the argument's between white
space; and they are its runs between spaces, tabs, line feeds, form feeds
and carriage returns exactly if it holds no other white space. -/
theorem addRemoveClass_splits_iff (h : r ∈ addRemoveClass.rewrites context w) :
    ∃ c target name literals values, r.site.arguments = [c]
      ∧ r.new = Build.methodCall (classList target) name literals
      ∧ List.Forall₂ Node.HasValue literals values
      ∧ values ≠ [] ∧ (∀ us ∈ values, IsClassToken us)
      ∧ ∀ us, c.node.HasValue us → SplitsInto isWhite us values
        ∧ (SplitsInto separatesClasses us values
          ↔ ∀ u ∈ us, isWhite u = true → separatesClasses u = true) := by
  obtain ⟨c, v, target, name, hargs, hv, hwords, hnew⟩ := addRemoveClass_spec h
  refine ⟨c, target, name, _, v.words.map Text.units, hargs, hnew, hasValue_words v, ?_, ?_, ?_⟩
  · rwa [ne_eq, List.map_eq_nil_iff]
  · exact fun us hus => isToken_of_mem_words hus
  · intro us hus
    have hsplit := (splitsInto_units v).relined (by decide) (by decide) (hus.relined hv)
    exact ⟨hsplit, hsplit.iff_of_fewer fun _ => isWhite_of_separatesClasses⟩

/-- A tab separates for both. -/
theorem addRemoveClass_splits_tab :
    ∃ n r values, parse (ofString "$(el).addClass(\"a\tb\");") = .ok n
      ∧ r ∈ addRemoveClass.rewrites .default (.ofProgram n)
      ∧ r.new.code = ofString "el.classList.add(\"a\", \"b\")"
      ∧ (∀ us ∈ values, IsClassToken us)
      ∧ SplitsInto separatesClasses [0x61, 0x9, 0x62] values := by
  obtain ⟨n, hn, htest⟩ := exists_of_parse_any (ofString "$(el).addClass(\"a\tb\");")
    (fun n => (addRemoveClass.rewrites .default (.ofProgram n)).any fun r =>
      r.new.code == ofString "el.classList.add(\"a\", \"b\")"
        && r.site.arguments.map (fun c => (c.node.code, c.node.is .templateString))
          == [(ofString "\"a\tb\"", false)])
    (by decide +kernel)
  obtain ⟨r, hr, htest⟩ := List.any_eq_true.1 htest
  rw [Bool.and_eq_true, beq_iff_eq, beq_iff_eq] at htest
  obtain ⟨c, target, name, literals, values, hargs, -, -, -, htokens, hsplits⟩ :=
    addRemoveClass_splits_iff hr
  rw [hargs, List.map_singleton, List.cons.injEq, Prod.mk.injEq] at htest
  obtain ⟨hcode, ⟨harg, hkind⟩, -⟩ := htest
  have hread : Reading (.scalar '"') (ofString "a\tb") ((ofString "a\tb").map .raw) :=
    .raw (by decide) (by decide) (.raw (by decide) (by decide)
      (.raw (by decide) (by decide) .nil))
  have hvalue : c.node.HasValue [0x61, 0x9, 0x62] :=
    ⟨.scalar '"', ofString "a\tb", _, harg, hread, by rw [hkind]; decide⟩
  exact ⟨n, r, values, hn, hr, hcode, htokens, (hsplits _ hvalue).2.2 (by decide)⟩

/-- A space that does not break separates for the words only. -/
theorem addRemoveClass_splits_unbroken :
    let us : Units := [0x61, 0xA0, 0x62]
    ∃ n r c target name literals values,
      parse (ofString "$(el).addClass(\"a\\u00a0b\");") = .ok n
      ∧ r ∈ addRemoveClass.rewrites .default (.ofProgram n)
      ∧ r.site.arguments = [c] ∧ c.node.HasValue us
      ∧ r.new.code = ofString "el.classList.add(\"a\", \"b\")"
      ∧ r.new = Build.methodCall (classList target) name literals
      ∧ List.Forall₂ Node.HasValue literals values
      ∧ SplitsInto separatesClasses us [us] ∧ ¬ SplitsInto separatesClasses us values := by
  intro us
  obtain ⟨n, hn, htest⟩ := exists_of_parse_any (ofString "$(el).addClass(\"a\\u00a0b\");")
    (fun n => (addRemoveClass.rewrites .default (.ofProgram n)).any fun r =>
      r.new.code == ofString "el.classList.add(\"a\", \"b\")"
        && r.site.arguments.map (fun c => (c.node.code, c.node.is .templateString))
          == [(ofString "\"a\\u00a0b\"", false)])
    (by decide +kernel)
  obtain ⟨r, hr, htest⟩ := List.any_eq_true.1 htest
  rw [Bool.and_eq_true, beq_iff_eq, beq_iff_eq] at htest
  obtain ⟨c, v, target, name, hargs, hv, -, hnew⟩ := addRemoveClass_spec hr
  rw [hargs, List.map_singleton, List.cons.injEq, Prod.mk.injEq] at htest
  obtain ⟨hcode, ⟨harg, hkind⟩, -⟩ := htest
  have hescape : Escape (ofString "u00a0") (ofString "b") (.text [.scalar '\u00a0']) :=
    .unit rfl (by decide)
  have hb : Reading (.scalar '"') (ofString "b") [.raw (.scalar 'b')] :=
    .raw (by decide) (by decide) .nil
  have hvalue : c.node.HasValue us :=
    ⟨.scalar '"', ofString "a\\u00a0b", _, harg,
      .raw (by decide) (by decide) (.escape hescape hb), by rw [hkind]; decide⟩
  have hsplit := (splitsInto_units v).relined (by decide) (by decide) (hvalue.relined hv)
  refine ⟨n, r, c, target, name, _, v.words.map Text.units, hn, hr, hargs, hvalue, hcode, hnew,
    hasValue_words v, ?_, ?_⟩
  · have hrun : ∀ u ∈ us, separatesClasses u = false := by decide
    exact .run (List.cons_ne_nil _ _) hrun nofun .nil
  · rw [hsplit.iff_of_fewer fun _ => isWhite_of_separatesClasses]
    decide

end Rules

end Codemod
