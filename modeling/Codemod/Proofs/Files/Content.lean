/-
What a store holds.

In a store that can lie on a disk every entry has a name, and the names
in a folder differ (`Store.IsNamed`). Such a store is its outline together
with what is in its files (`eq_of_files`). Putting a file in the place of
another changes what is in that file alone (`at?_putAt_of_ne`), and of two
files put in one place the second stays (`putAt_putAt`).

A location is found again by the path that spells its names
(`locate_intercalate`).
-/
import Mathlib.Data.List.Basic
import Codemod.Proofs.Files.Writing

namespace Codemod

namespace Path

-- ================================================================= names

variable {s n : String} {ns : List String}

/-- A string that an entry of a folder can be called. -/
def isName (n : String) : Bool :=
  n != "" && n != "." && n != ".." && !n.toList.contains '/'

theorem isName_iff : isName n = true
    ↔ n ≠ "" ∧ n ≠ "." ∧ n ≠ ".." ∧ '/' ∉ n.toList := by
  simp [isName, and_assoc]

theorem not_mem_of_mem_splitOn {α : Type} [DecidableEq α] {a : α} {l p : List α}
    (h : p ∈ l.splitOn a) : a ∉ p := by
  induction l generalizing p with
  | nil =>
      rw [List.splitOn_nil, List.mem_singleton] at h
      exact h ▸ List.not_mem_nil
  | cons x l ih =>
      rw [List.splitOn_cons_eq_if_modifyHead] at h
      split at h
      · rcases List.mem_cons.1 h with rfl | h
        · exact List.not_mem_nil
        · exact ih h
      · next hx =>
          obtain ⟨q, qs, hq⟩ := List.exists_cons_of_ne_nil (List.splitOn_ne_nil a l)
          rw [hq] at h ih
          rcases List.mem_cons.1 h with rfl | h
          · rw [List.mem_cons, not_or]
            exact ⟨fun hax => hx (beq_iff_eq.2 hax.symm), ih List.mem_cons_self⟩
          · exact ih (List.mem_cons_of_mem q h)

theorem not_mem_of_mem_split (h : n ∈ split s) : '/' ∉ n.toList := by
  obtain ⟨p, hp, rfl⟩ := List.mem_map.1 h
  rw [String.toList_ofList]
  exact not_mem_of_mem_splitOn hp

/-- Names are what stands between the slashes put between them. -/
theorem split_intercalate (hns : ns ≠ []) (h : ∀ n ∈ ns, '/' ∉ n.toList) :
    split ("/".intercalate ns) = ns := by
  have hsplit : (['/'].intercalate (ns.map String.toList)).splitOn '/'
      = ns.map String.toList :=
    List.splitOn_intercalate '/' (by simpa using h) (by simpa using hns)
  rw [split, String.toList_intercalate]
  change (List.splitOn '/' (['/'].intercalate (ns.map String.toList))).map _ = ns
  rw [hsplit, List.map_map]
  exact (List.map_congr_left fun n _ => String.ofList_toList).trans (List.map_id ns)

/-- A path of names does not start with a slash. -/
theorem spelled_intercalate (hns : ns ≠ [])
    (h : ∀ n ∈ ns, n ≠ "" ∧ '/' ∉ n.toList) :
    (("/".intercalate ns).isEmpty || ("/".intercalate ns).startsWith "/") = false := by
  obtain ⟨n, rest, rfl⟩ := List.exists_cons_of_ne_nil hns
  obtain ⟨hn, hslash⟩ := h n List.mem_cons_self
  obtain ⟨c, cs, hc⟩ := List.exists_cons_of_ne_nil
    (fun hnil => hn (String.toList_inj.1 (hnil.trans String.toList_empty.symm)))
  have hlist : ∃ ds, ("/".intercalate (n :: rest)).toList = c :: ds := by
    rw [String.toList_intercalate, List.map_cons, hc]
    cases rest with
    | nil => exact ⟨cs, by simp⟩
    | cons m rest => exact ⟨_, by rw [List.map_cons, List.intercalate_cons_cons]; rfl⟩
  obtain ⟨ds, hds⟩ := hlist
  have hcs : c ≠ '/' := by
    rintro rfl
    exact hslash (hc ▸ List.mem_cons_self)
  rw [Bool.or_eq_false_iff, ← Bool.not_eq_true, ← Bool.not_eq_true,
    String.isEmpty_iff, String.startsWith_string_iff, ← String.toList_inj, hds]
  refine ⟨by simp, fun hp => ?_⟩
  have := (List.cons_prefix_cons.1 hp).1
  exact hcs this.symm

end Path

namespace Entry

variable {name : String} {e f : Entry} {es fs : List (String × Entry)}
  {l m : Location} {old new b : Bytes}

-- =========================================================== named entries

mutual

/-- Everything below an entry is named. -/
def isNamed : Entry → Bool
  | .file _ => true
  | .folder es => areNamed es

/-- Entries with names that differ, and everything below them. -/
def areNamed : List (String × Entry) → Bool
  | [] => true
  | (name, e) :: es =>
    Path.isName name && (es.lookup name).isNone && e.isNamed && areNamed es

end

theorem areNamed_cons : areNamed ((name, e) :: es) = true
    ↔ Path.isName name = true ∧ es.lookup name = none ∧ e.isNamed = true
      ∧ areNamed es = true := by
  simp [areNamed, and_assoc]

/-- An entry is looked up by its name. -/
theorem lookup_of_mem (h : areNamed es = true) (hmem : (name, e) ∈ es) :
    es.lookup name = some e ∧ Path.isName name = true ∧ e.isNamed = true := by
  induction es with
  | nil => cases hmem
  | cons p es ih =>
      obtain ⟨n, g⟩ := p
      obtain ⟨hn, hnone, hg, hes⟩ := areNamed_cons.1 h
      rcases List.mem_cons.1 hmem with heq | hmem
      · obtain ⟨rfl, rfl⟩ := Prod.mk.inj heq
        exact ⟨by rw [List.lookup_cons_self], hn, hg⟩
      · obtain ⟨hlookup, hrest⟩ := ih hes hmem
        have hne : name ≠ n := by
          rintro rfl
          rw [hnone] at hlookup
          cases hlookup
        rw [List.lookup_cons, beq_false_of_ne hne]
        exact ⟨hlookup, hrest⟩

theorem at?_cons_of_lookup (h : es.lookup name = some e) :
    (Entry.folder es).at? (name :: l) = e.at? l := by
  rw [at?, h]

theorem isNamed_of_at? (he : e.isNamed = true) (h : e.at? l = some f) :
    f.isNamed = true := by
  induction l generalizing e with
  | nil =>
      rw [at?.eq_def e []] at h
      exact Option.some.inj h ▸ he
  | cons name l ih =>
      cases e with
      | file b => cases h
      | folder es =>
          rw [at?] at h
          cases hg : es.lookup name with
          | none =>
              rw [hg] at h
              cases h
          | some g =>
              rw [hg] at h
              obtain ⟨ds, ds', rfl, -⟩ := List.lookup_eq_some_iff.1 hg
              have hmem : (name, g) ∈ ds ++ (name, g) :: ds' := by simp
              exact ih (lookup_of_mem he hmem).2.2 h

mutual

/-- Entries with one outline are one if the same is in their files. -/
theorem eq_of_files (e f : Entry) (he : e.isNamed = true)
    (hout : e.outline = f.outline)
    (hfiles : ∀ l b, e.at? l = some (.file b) → f.at? l = some (.file b)) : e = f :=
  match e, f with
  | .file b, .file c => by
      have h := hfiles [] b (at?.eq_def _ [])
      rw [at?] at h
      exact (Option.some.inj h).symm
  | .file b, .folder fs => by cases hout
  | .folder es, .file c => by cases hout
  | .folder es, .folder fs => by
      rw [isNamed] at he
      exact congrArg Entry.folder
        (eq_of_files_of_entries es fs he (Entry.folder.inj hout) hfiles)

theorem eq_of_files_of_entries (es fs : List (String × Entry))
    (hes : areNamed es = true) (hout : outlines es = outlines fs)
    (hfiles : ∀ l b, (Entry.folder es).at? l = some (.file b)
      → (Entry.folder fs).at? l = some (.file b)) : es = fs :=
  match es, fs with
  | [], [] => rfl
  | [], _ :: _ => by cases hout
  | _ :: _, [] => by cases hout
  | (n, e) :: es, (k, f) :: fs => by
      rw [outlines, outlines] at hout
      obtain ⟨hhead, hrest⟩ := List.cons.inj hout
      obtain ⟨rfl, hef⟩ := Prod.mk.inj hhead
      obtain ⟨-, hnone, he, hes⟩ := areNamed_cons.1 hes
      have hfirst : e = f := by
        refine eq_of_files e f he hef fun l b hb => ?_
        have := hfiles (n :: l) b (by rw [at?, List.lookup_cons_self]; exact hb)
        rwa [at?, List.lookup_cons_self] at this
      have hothers : es = fs := by
        refine eq_of_files_of_entries es fs hes hrest fun l b hb => ?_
        cases l with
        | nil => cases hb
        | cons x l =>
            have hx : x ≠ n := by
              rintro rfl
              rw [at?, hnone] at hb
              cases hb
            have hskip : ∀ (g : Entry) gs, (Entry.folder ((n, g) :: gs)).at? (x :: l)
                = (Entry.folder gs).at? (x :: l) := by
              intro g gs
              rw [at?, at?, List.lookup_cons, beq_false_of_ne hx]
            rw [← hskip f]
            exact hfiles (x :: l) b (by rw [hskip]; exact hb)
      rw [hfirst, hothers]

end

mutual

theorem isNamed_outline (e : Entry) : e.outline.isNamed = e.isNamed :=
  match e with
  | .file _ => rfl
  | .folder es => areNamed_outlines es

theorem areNamed_outlines (es : List (String × Entry)) :
    areNamed (outlines es) = areNamed es :=
  match es with
  | [] => rfl
  | (name, e) :: es => by
      rw [outlines, areNamed, areNamed, isNamed_outline e, areNamed_outlines es,
        lookup_outlines, Option.isNone_map]

end

-- ============================================================ putting back

theorem put_of_lookup (h : es.lookup name = some e) : put name e es = es := by
  induction es with
  | nil => cases h
  | cons p es ih =>
      obtain ⟨n, g⟩ := p
      rw [List.lookup_cons] at h
      rw [put]
      by_cases hn : n = name
      · rw [hn, beq_self_eq_true] at h
        obtain rfl := Option.some.inj h
        rw [if_pos (beq_iff_eq.2 hn), hn]
      · rw [beq_false_of_ne (Ne.symm hn)] at h
        rw [if_neg (by simpa using hn), ih h]

theorem put_put (d : Entry) : put name d (put name e es) = put name d es := by
  induction es with
  | nil => simp [put]
  | cons p es ih =>
      obtain ⟨n, g⟩ := p
      by_cases hn : n = name
      · simp [put, hn]
      · simp [put, hn, ih]

/-- A file that is put where it is changes nothing. -/
theorem putAt_of_at? (h : (Entry.folder es).at? l = some e) (hl : l ≠ []) :
    putAt e l es = es := by
  fun_induction putAt e l es with
  | case1 => rfl
  | case2 name es =>
      rw [at?] at h
      split at h
      · next g hg =>
          rw [at?.eq_def g []] at h
          exact put_of_lookup (hg.trans h)
      · cases h
  | case3 name next names es below ih =>
      rw [at?] at h
      split at h
      · next g hg =>
          cases g with
          | file b => cases h
          | folder inner =>
              have hbelow : below = inner := by
                simp only [below, hg]
              rw [ih (by rw [hbelow]; exact h) (List.cons_ne_nil _ _), hbelow]
              exact put_of_lookup hg
      · cases h

/-- Of two things put in one place the second stays. -/
theorem putAt_putAt (d : Entry) : putAt d l (putAt e l es) = putAt d l es := by
  fun_induction putAt e l es with
  | case1 => rfl
  | case2 name es =>
      rw [putAt, putAt, put_put]
  | case3 name next names es below ih =>
      rw [putAt, lookup_put_self, ih, put_put, putAt]

-- ======================================================== putting elsewhere

/-- What is written in the place of a file is not seen in another. -/
theorem at?_putAt_of_ne (hl : (Entry.folder es).at? l = some (.file old))
    (hm : (Entry.folder es).at? m = some (.file b)) (hne : m ≠ l) :
    (Entry.folder (putAt (.file new) l es)).at? m = some (.file b) := by
  induction l generalizing es m with
  | nil => cases hl
  | cons name l ih =>
      cases m with
      | nil => cases hm
      | cons k m =>
          by_cases hk : k = name
          · subst hk
            cases hg : es.lookup k with
            | none =>
                rw [at?, hg] at hl
                cases hl
            | some g =>
                rw [at?_cons_of_lookup hg] at hl hm
                have hml : m ≠ l := fun h => hne (h ▸ rfl)
                cases l with
                | nil =>
                    rw [at?.eq_def g []] at hl
                    obtain rfl := Option.some.inj hl
                    cases m with
                    | nil => exact absurd rfl hml
                    | cons x m => cases hm
                | cons next l =>
                    cases g with
                    | file c => cases hl
                    | folder inner =>
                        rw [putAt, at?_cons_of_lookup lookup_put_self]
                        simp only [hg]
                        exact ih hl hm hml
          · have hput : ∃ g, putAt (.file new) (name :: l) es = put name g es := by
              cases l with
              | nil => exact ⟨_, rfl⟩
              | cons next l => exact ⟨_, rfl⟩
            obtain ⟨g, hg⟩ := hput
            rw [hg, at?, lookup_put_of_ne hk]
            exact hm

end Entry

namespace Store

variable {s t : Store} {l m : Location} {ns : List String} {e : Entry}
  {old new a b : Bytes}

/-- Every entry has a name, and the names in a folder differ. -/
def IsNamed (s : Store) : Prop := Entry.areNamed s.entries = true

instance (s : Store) : Decidable s.IsNamed := inferInstanceAs (Decidable (_ = true))

theorem IsNamed.of_outline_eq (hs : s.IsNamed) (h : t.outline = s.outline) :
    t.IsNamed := by
  unfold IsNamed at *
  rw [← Entry.areNamed_outlines, ← hs, ← Entry.areNamed_outlines s.entries]
  exact congrArg (Entry.areNamed ·.entries) h

/-- A store is its outline together with what is in its files. -/
theorem eq_of_files (hs : s.IsNamed) (hout : s.outline = t.outline)
    (hfiles : ∀ l b, s.at? l = some (.file b) → t.at? l = some (.file b)) : s = t :=
  congrArg Store.mk (Entry.eq_of_files_of_entries _ _ hs (Store.mk.inj hout) hfiles)

/-- Stores with one outline have files at the same places. -/
theorem exists_file_of_outline_eq (hout : s.outline = t.outline)
    (h : s.at? l = some (.file b)) : ∃ c, t.at? l = some (.file c) := by
  have hl := at?_outline (s := s) l
  rw [hout, at?_outline, h, Option.map_some, Entry.outline] at hl
  obtain ⟨f, hf, hfile⟩ := Option.map_eq_some_iff.1 hl
  cases f with
  | file c => exact ⟨c, hf⟩
  | folder es => cases hfile

theorem putAt_of_at? (h : s.at? l = some (.file b)) :
    s.putAt l (.file b) = s :=
  congrArg Store.mk (Entry.putAt_of_at? h fun hnil => by
    subst hnil
    cases h)

theorem putAt_putAt : (s.putAt l (.file a)).putAt l (.file b)
    = s.putAt l (.file b) :=
  congrArg Store.mk (Entry.putAt_putAt _)

theorem at?_putAt_of_ne (hl : s.at? l = some (.file old))
    (hm : s.at? m = some (.file b)) (hne : m ≠ l) :
    (s.putAt l (.file new)).at? m = some (.file b) :=
  Entry.at?_putAt_of_ne hl hm hne

-- =========================================================== spelled paths

/-- Names that lead to an entry can be followed. -/
theorem follow_of_at? (hns : ∀ n ∈ ns, Path.isName n = true)
    (h : s.at? (l ++ ns) = some e) : s.follow l ns = .ok (l ++ ns) := by
  induction ns generalizing l with
  | nil => rw [follow, List.append_nil]
  | cons n ns ih =>
      obtain ⟨hempty, hdot, hup, -⟩ := Path.isName_iff.1 (hns n List.mem_cons_self)
      obtain ⟨es, hes⟩ := folder_of_at?_append h (List.cons_ne_nil n ns)
      have hsome : (es.lookup n).isSome = true := by
        rw [at?_append, hes, Option.bind_some, Entry.at?] at h
        cases hn : es.lookup n with
        | none =>
            rw [hn] at h
            cases h
        | some g => rfl
      rw [follow, hes]
      simp only [beq_false_of_ne hempty, beq_false_of_ne hdot, beq_false_of_ne hup,
        Bool.or_self, Bool.false_eq_true, if_false, hsome, if_true]
      rw [List.append_cons] at h
      rw [List.append_cons l n ns]
      exact ih (fun k hk => hns k (List.mem_cons_of_mem n hk)) h

/-- What a path that spells names leads to. -/
theorem locate_intercalate (hns : ns ≠ [])
    (h : ∀ n ∈ ns, n ≠ "" ∧ '/' ∉ n.toList) :
    s.locate ("/".intercalate ns) = s.follow [] ns := by
  rw [locate, Path.spelled_intercalate hns h, if_neg Bool.false_ne_true,
    Path.split_intercalate hns fun n hn => (h n hn).2]

end Store

end Codemod
