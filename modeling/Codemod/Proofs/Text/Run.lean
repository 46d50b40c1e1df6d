/-
Runs between separators.

A list falls into runs: stretches as long as they get that are not empty
and hold no separator (`SplitsInto`). The words of a text are its runs
between white space (`splitsInto_words`). Where fewer things separate, the
runs are the same exactly if the list holds nothing of the rest
(`SplitsInto.iff_of_fewer`). The runs of a text are those of its units
(`SplitsInto.flatMap`), and a template's line ends, which its value does
not have as they are written, do not change them (`SplitsInto.relined`).
-/
import Mathlib.Data.List.SplitBy
import Codemod.Proofs.Text.Literal
import Codemod.Proofs.Text.Units

namespace Codemod

-- =================================================================== runs

/-- The list consists of the given runs, which are not empty and hold no
separator, and of separators around them, of which there is at least one
between two runs. -/
inductive SplitsInto {α : Type} (sep : α → Bool) : List α → List (List α) → Prop
  | nil : SplitsInto sep [] []
  | gap {x : α} {t : List α} {runs : List (List α)} : sep x = true →
      SplitsInto sep t runs → SplitsInto sep (x :: t) runs
  | run {r t : List α} {runs : List (List α)} : r ≠ [] → (∀ x ∈ r, sep x = false) →
      (∀ x ∈ t.head?, sep x = true) → SplitsInto sep t runs →
      SplitsInto sep (r ++ t) (r :: runs)

namespace SplitsInto

variable {α β : Type} {sep blank : α → Bool} {t : List α} {runs : List (List α)}

theorem of_mem (h : SplitsInto sep t runs) :
    ∀ r ∈ runs, r ≠ [] ∧ ∀ x ∈ r, sep x = false := by
  induction h with
  | nil => exact List.forall_mem_nil _
  | gap _ _ ih => exact ih
  | run hne hfree _ _ ih => exact List.forall_mem_cons.2 ⟨⟨hne, hfree⟩, ih⟩

/-- What does not separate is in a run. -/
theorem exists_mem (h : SplitsInto sep t runs) {x : α} (hx : x ∈ t)
    (hsep : sep x = false) : ∃ r ∈ runs, x ∈ r := by
  induction h with
  | nil => exact absurd hx List.not_mem_nil
  | gap hgap _ ih =>
    rcases List.mem_cons.1 hx with rfl | hx
    · rw [hgap] at hsep
      cases hsep
    · exact ih hx
  | @run r t runs _ _ _ _ ih =>
    rcases List.mem_append.1 hx with hx | hx
    · exact ⟨r, List.mem_cons_self, hx⟩
    · obtain ⟨s, hs, hxs⟩ := ih hx
      exact ⟨s, List.mem_cons_of_mem _ hs, hxs⟩

/-- Where fewer things separate, the runs stay the same exactly if nothing
of the rest occurs. -/
theorem iff_of_fewer (h : SplitsInto blank t runs)
    (hfewer : ∀ x, sep x = true → blank x = true) :
    SplitsInto sep t runs ↔ ∀ x ∈ t, blank x = true → sep x = true := by
  constructor
  · intro hsplit x hx hblank
    by_contra hsep
    obtain ⟨r, hr, hxr⟩ := hsplit.exists_mem hx (Bool.eq_false_iff.2 hsep)
    have hfree := (h.of_mem r hr).2 x hxr
    rw [hblank] at hfree
    cases hfree
  · intro hall
    induction h with
    | nil => exact .nil
    | gap hgap _ ih =>
      rw [List.forall_mem_cons] at hall
      exact .gap (hall.1 hgap) (ih hall.2)
    | @run r t runs hne hfree hhead _ ih =>
      rw [List.forall_mem_append] at hall
      refine .run hne (fun x hx => ?_) (fun x hx => ?_) (ih hall.2)
      · have hblank := hfree x hx
        by_contra hsep
        rw [Bool.not_eq_false] at hsep
        rw [hfewer x hsep] at hblank
        cases hblank
      · exact hall.2 x (List.mem_of_mem_head? hx) (hhead x hx)

theorem gaps {g : List α} (hg : ∀ x ∈ g, sep x = true) (h : SplitsInto sep t runs) :
    SplitsInto sep (g ++ t) runs := by
  induction g with
  | nil => exact h
  | cons x g ih =>
    rw [List.forall_mem_cons] at hg
    exact .gap hg.1 (ih hg.2)

/-- The runs are kept when each element is spelled out by others that
separate exactly if it does. -/
theorem flatMap {f : α → List β} {sep' : β → Bool}
    (hf : ∀ x, f x ≠ [] ∧ ∀ y ∈ f x, sep' y = sep x) (h : SplitsInto sep t runs) :
    SplitsInto sep' (t.flatMap f) (runs.map fun r => r.flatMap f) := by
  induction h with
  | nil => exact .nil
  | @gap x t runs hgap _ ih =>
    rw [List.flatMap_cons]
    exact .gaps (fun y hy => ((hf x).2 y hy).trans hgap) ih
  | @run r t runs hne hfree hhead _ ih =>
    rw [List.flatMap_append, List.map_cons]
    refine .run ?_ (fun y hy => ?_) (fun y hy => ?_) ih
    · obtain ⟨x, r, rfl⟩ := List.exists_cons_of_ne_nil hne
      rw [List.flatMap_cons]
      exact List.append_ne_nil_of_left_ne_nil (hf x).1 _
    · obtain ⟨x, hx, hy⟩ := List.mem_flatMap.1 hy
      exact ((hf x).2 y hy).trans (hfree x hx)
    · cases t with
      | nil => cases hy
      | cons x t =>
        obtain ⟨z, zs, hz⟩ := List.exists_cons_of_ne_nil (hf x).1
        rw [List.flatMap_cons, hz] at hy
        obtain rfl : z = y := Option.some.inj hy
        have hzx := (hf x).2 z (hz ▸ List.mem_cons_self)
        exact hzx.trans (hhead x rfl)

end SplitsInto

-- ================================================================== words

section Groups

variable {α : Type} {sep : α → Bool}

/-- Where neighbours are alike all are. -/
theorem eq_of_isChain {x : α} {g : List α}
    (h : (x :: g).IsChain fun a b => (sep a == sep b) = true) :
    ∀ y ∈ x :: g, sep y = sep x := by
  induction g generalizing x with
  | nil => exact List.forall_mem_singleton.2 rfl
  | cons z g ih =>
    rw [List.isChain_cons_cons, beq_iff_eq] at h
    refine List.forall_mem_cons.2 ⟨rfl, fun y hy => ?_⟩
    exact (ih h.2 y hy).trans h.1.symm

/-- Of groups of which neighbours differ, those without separators are the
runs. -/
theorem splitsInto_flatten {gs : List (List α)} (keep : List α → Bool)
    (hkeep : ∀ x g, keep (x :: g) = !sep x) (hne : [] ∉ gs)
    (halike : ∀ g ∈ gs, g.IsChain fun a b => (sep a == sep b) = true)
    (hdiffer : gs.IsChain fun g k => ∃ hg hk,
      (sep (g.getLast hg) == sep (k.head hk)) = false) :
    SplitsInto sep gs.flatten (gs.filter keep) := by
  induction gs with
  | nil => exact .nil
  | cons g gs ih =>
    rw [List.mem_cons, not_or] at hne
    rw [List.forall_mem_cons] at halike
    have hrest := ih hne.2 halike.2 hdiffer.tail
    obtain ⟨x, g, rfl⟩ := List.exists_cons_of_ne_nil (Ne.symm hne.1)
    have hall := eq_of_isChain halike.1
    rw [List.flatten_cons, List.filter_cons, hkeep]
    cases hsep : sep x with
    | true =>
      rw [hsep] at hall
      exact .gaps hall hrest
    | false =>
      rw [hsep] at hall
      refine .run (List.cons_ne_nil x g) hall (fun y hy => ?_) hrest
      cases gs with
      | nil => cases hy
      | cons k gs =>
        obtain ⟨_, hk, hdiff⟩ := (List.isChain_cons_cons.1 hdiffer).1
        obtain ⟨z, k, rfl⟩ := List.exists_cons_of_ne_nil hk
        obtain rfl : z = y := Option.some.inj hy
        rw [hall _ (List.getLast_mem _)] at hdiff
        simpa using hdiff

end Groups

theorem splitsInto_words (t : Text) : SplitsInto Point.isBlank t t.words := by
  have hflat := List.flatten_splitBy (fun a b : Point => a.isBlank == b.isBlank) t
  have hsplit : SplitsInto Point.isBlank
      (t.splitBy fun a b : Point => a.isBlank == b.isBlank).flatten t.words := splitsInto_flatten
    _ (fun _ _ => rfl) (List.nil_notMem_splitBy _ t) (fun _ => List.isChain_of_mem_splitBy)
    (List.isChain_getLast_head_splitBy (fun a b : Point => a.isBlank == b.isBlank) t)
  rwa [hflat] at hsplit

-- ================================================================== units

/-- White space, among the units of sixteen bits. -/
def isWhite (u : Nat) : Bool := inRanges u blankRanges

/-- No half of a surrogate pair is white space. -/
theorem isWhite_eq_false {u : Nat} (h : 0x3000 < u) : isWhite u = false := by
  simp only [isWhite, inRanges, blankRanges, List.any_cons, List.any_nil, Bool.or_false,
    Bool.or_eq_false_iff, Bool.and_eq_false_iff, decide_eq_false_iff_not]
  omega

/-- A point is written in units that are white space if it is. -/
theorem Point.isWhite_of_mem_units (p : Point) :
    p.units ≠ [] ∧ ∀ u ∈ p.units, isWhite u = p.isBlank := by
  unfold Point.units
  split
  · exact ⟨List.cons_ne_nil _ _, List.forall_mem_singleton.2 rfl⟩
  · next hcode =>
    have hp : p.isBlank = false := isWhite_eq_false (u := p.code) (by omega)
    refine ⟨List.cons_ne_nil _ _, ?_⟩
    rw [hp, List.forall_mem_cons, List.forall_mem_singleton]
    exact ⟨isWhite_eq_false (by omega), isWhite_eq_false (by omega)⟩

theorem splitsInto_units (t : Text) :
    SplitsInto isWhite t.units (t.words.map Text.units) :=
  (splitsInto_words t).flatMap Point.isWhite_of_mem_units

-- ============================================================== line ends

/-- The first units as they are written, the second with a line feed for
each end of a line. -/
inductive Relined : Units → Units → Prop
  | nil : Relined [] []
  | same {u : Nat} {s t : Units} : Relined s t → Relined (u :: s) (u :: t)
  | feed {s t : Units} : Relined s t → Relined (0xD :: s) (0xA :: t)
  | joined {s t : Units} : Relined s (0xA :: t) → Relined (0xD :: s) (0xA :: t)

theorem Relined.append (r : Units) {s t : Units} (h : Relined s t) :
    Relined (r ++ s) (r ++ t) := by
  induction r with
  | nil => exact h
  | cons u r ih => exact .same ih

/-- What holds no end of a line is kept in front. -/
theorem Relined.exists_append {r s t : Units} (hr : 0xD ∉ r) (h : Relined (r ++ s) t) :
    ∃ t', t = r ++ t' ∧ Relined s t' := by
  induction r generalizing t with
  | nil => exact ⟨t, rfl, h⟩
  | cons u r ih =>
    rw [List.mem_cons, not_or] at hr
    cases h with
    | same h =>
      obtain ⟨t', rfl, ht⟩ := ih hr.2 h
      exact ⟨t', rfl, ht⟩
    | feed => exact absurd rfl hr.1
    | joined => exact absurd rfl hr.1

/-- Ends of lines that separate can be written differently. -/
theorem SplitsInto.relined {sep : Nat → Bool} (hcr : sep 0xD = true) (hlf : sep 0xA = true)
    {s t : Units} {runs : List Units} (h : SplitsInto sep s runs) (hst : Relined s t) :
    SplitsInto sep t runs := by
  induction h generalizing t with
  | nil =>
    cases hst
    exact .nil
  | gap hgap _ ih =>
    cases hst with
    | same hst => exact .gap hgap (ih hst)
    | feed hst => exact .gap hlf (ih hst)
    | joined hst => exact ih hst
  | @run r s runs hne hfree hhead _ ih =>
    have hr : 0xD ∉ r := by
      intro hmem
      have hsep := hfree _ hmem
      rw [hcr] at hsep
      cases hsep
    obtain ⟨t, rfl, hrest⟩ := hst.exists_append hr
    refine .run hne hfree (fun x hx => ?_) (ih hrest)
    cases hrest with
    | nil => cases hx
    | same =>
      obtain rfl := Option.some.inj hx
      exact hhead _ rfl
    | feed =>
      obtain rfl := Option.some.inj hx
      exact hlf
    | joined =>
      obtain rfl := Option.some.inj hx
      exact hlf

namespace Literal

/-- The value of a literal is what the decoder reads, with the ends of
lines that a template has. -/
theorem relined_of_value? {isTemplate : Bool} {ps : List Part} {v : Text} {us : Units}
    (hv : decoded ps = .ok v) (hus : value? isTemplate ps = some us) :
    Relined v.units us := by
  induction ps generalizing v us with
  | nil =>
    obtain rfl := Except.ok.inj hv
    obtain rfl := Option.some.inj hus
    exact .nil
  | cons part ps ih =>
    obtain ⟨u, w, hu, hw, rfl⟩ := decoded_cons_eq_ok.1 hv
    rw [Text.units_append]
    cases part with
    | escape e m =>
      cases m with
      | text t =>
        obtain rfl := Except.ok.inj hu
        obtain ⟨rest, hrest, rfl⟩ := Option.map_eq_some_iff.1 hus
        exact (ih hw hrest).append _
      | legacy => cases hu
      | beyond n => cases hu
    | raw p =>
      obtain rfl := Except.ok.inj hu
      have hunits : Text.units [p] = p.units := List.append_nil _
      rw [hunits]
      rw [value?] at hus
      cases hb : breaks isTemplate p with
      | false =>
        rw [hb] at hus
        obtain ⟨rest, hrest, rfl⟩ := Option.map_eq_some_iff.1 hus
        exact (ih hw hrest).append _
      | true =>
        rw [hb] at hus
        cases isTemplate with
        | false => cases hus
        | true =>
          obtain rfl : p = .scalar '\r' := by simpa [breaks, Point.is] using hb
          simp only [Bool.not_true, Bool.false_eq_true, if_false] at hus
          split at hus
          · next hnext =>
            obtain ⟨ps, rfl⟩ := List.head?_eq_some_iff.1 hnext
            obtain ⟨us, rfl⟩ := List.head?_eq_some_iff.1 (head?_value?_lineFeed hus)
            exact .joined (ih hw hus)
          · obtain ⟨rest, hrest, rfl⟩ := Option.map_eq_some_iff.1 hus
            exact .feed (ih hw hrest)

end Literal

end Codemod
