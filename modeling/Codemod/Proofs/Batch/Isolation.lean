/-
Files are processed apart from each other.

What becomes of a file depends on what is in it, and on nothing else
(`rework`): processing it puts something new in its place and leaves the
other files alone (`processFile_eq_rework`). Paths that lead to different
files (`Separate`) can therefore be processed one after the other as if
each were the only one.

Main statements: `processEach_of_separate`, and `separate_of_findFiles`,
by which files that are found lie apart.
-/
import Mathlib.Data.List.Perm.Basic
import Codemod.Proofs.Batch.Containment
import Codemod.Proofs.Files.Finding

namespace Codemod

namespace Batch

variable {store after : Store} {mode : Mode} {s : Settings} {path : String}
  {paths : List String} {l m : Location} {content b : Bytes} {cs : List Char}

-- ================================================================ one file

/-- A fault becomes the result of a file, or ends its processing. -/
def contain (path : String) (f : Fault) : Except Fault FileResult :=
  if f.isContained then .ok (failure path f) else .error f

/-- The result for a file that has been written. -/
def changed (path : String) (r : TransformResult) : FileResult :=
  { path := path, status := .changed, appliedRules := r.appliedRules }

/-- The result for a file that is left as it is. -/
def shown (mode : Mode) (path : String) (before : Text) (r : TransformResult) :
    FileResult :=
  if r.modified then
    { changed path r with
      diff := if mode = .diff then Diff.unified path before r.code else [] }
  else { path := path, status := .unchanged }

/-- What writing a text leaves in a file that has been emptied, and the
outcome. -/
def rewrite (path : String) (emptied : Bytes) (r : TransformResult) :
    Bytes × Except Fault FileResult :=
  match r.code.toChars? with
  | none => (emptied, contain path (.unencodable .utf8 r.code))
  | some ds => (Utf8.encode ds, .ok (changed path r))

/-- What becomes of a file whose text has been read. -/
def reworkText (mode : Mode) (s : Settings) (path : String) (content : Bytes)
    (cs : List Char) : Bytes × Except Fault FileResult :=
  match s.transform (Text.ofChars cs) with
  | .error f => (content, contain path f)
  | .ok r =>
    if r.modified && mode == .write then rewrite path [] r
    else (content, .ok (shown mode path (Text.ofChars cs) r))

/-- What becomes of a file that is small enough. -/
def reworkSmall (mode : Mode) (s : Settings) (path : String) (content : Bytes) :
    Bytes × Except Fault FileResult :=
  match Utf8.read content with
  | .error f => (content, contain path f)
  | .ok cs => reworkText mode s path content cs

/-- What becomes of a file: what is in it afterwards, and the outcome. -/
def rework (mode : Mode) (s : Settings) (path : String) (content : Bytes) :
    Bytes × Except Fault FileResult :=
  match isTooLarge s content with
  | .error f => (content, contain path f)
  | .ok true =>
    (content, .ok { path := path, status := .skipped, reason := "file too large" })
  | .ok false => reworkSmall mode s path content

theorem source_of_at? (h : store.locate path = .ok l)
    (hl : store.at? l = some (.file content)) :
    source store s path = (do
      if ← isTooLarge s content then return none
      return some (← Utf8.read content)) := by
  rw [source, Store.readBytes_eq_ok_iff.2 ⟨l, h, hl⟩]
  rfl

/-- Writing a text over a file that is there. -/
theorem writeText_of_locate (h : store.locate path = .ok l)
    (hl : store.at? l = some (.file content)) (t : Text) :
    writeText store path t = match t.toChars? with
      | none => (store.putAt l (.file []), .error (.unencodable .utf8 t))
      | some cs => (store.putAt l (.file (Utf8.encode cs)), .ok ()) := by
  obtain ⟨hempty, hloc, hat⟩ := Store.writeBytes_of_locate [] h hl
  rw [writeText, hempty]
  cases t.toChars? with
  | none => rfl
  | some cs =>
      simp only [(Store.writeBytes_of_locate (Utf8.encode cs) hloc hat).1,
        Store.putAt_putAt]

/-- Processing a file looks at nothing but the file, and writes nothing
else. -/
theorem processFile_eq_rework (mode : Mode) (s : Settings) (h : store.locate path = .ok l)
    (hl : store.at? l = some (.file content)) :
    processFile store mode s path
      = (store.putAt l (.file (rework mode s path content).1),
        (rework mode s path content).2) := by
  have hsame := Store.putAt_of_at? hl
  have hwrite := writeText_of_locate h hl
  rw [processFile, attempt, source_of_at? h hl, rework]
  cases isTooLarge s content with
  | error f => simp [bind, Except.bind, contain, hsame]
  | ok large =>
      cases large with
      | true => simp [bind, Except.bind, pure, Except.pure, hsame]
      | false =>
          rw [reworkSmall]
          cases Utf8.read content with
          | error f => simp [bind, Except.bind, contain, hsame]
          | ok cs =>
              simp only [bind, Except.bind, pure, Except.pure, Bool.false_eq_true, if_false]
              rw [reworkText]
              cases s.transform (Text.ofChars cs) with
              | error f => simp [contain, hsame]
              | ok r =>
                  simp only [finish]
                  cases hm : r.modified with
                  | false => simp [shown, hm, hsame]
                  | true =>
                      cases mode with
                      | check => simp [shown, changed, hm, hsame]
                      | diff => simp [shown, changed, hm, hsame]
                      | write =>
                          simp only [hwrite, rewrite]
                          cases r.code.toChars? with
                          | none => simp [contain]
                          | some ds => simp [changed]

theorem path_of_contain {f : Fault} {r : FileResult} (h : contain path f = .ok r) :
    r.path = path := by
  unfold contain at h
  split at h
  · obtain rfl := Except.ok.inj h
    rfl
  · cases h

theorem path_of_shown {before : Text} {r : TransformResult} :
    (shown mode path before r).path = path := by
  unfold shown
  split <;> rfl

/-- The result for a file bears its path. -/
theorem path_of_rework {r : FileResult} (h : (rework mode s path content).2 = .ok r) :
    r.path = path := by
  unfold rework at h
  split at h
  · exact path_of_contain h
  · obtain rfl := Except.ok.inj h
    rfl
  · unfold reworkSmall at h
    split at h
    · exact path_of_contain h
    · unfold reworkText at h
      split at h
      · exact path_of_contain h
      · split at h
        · unfold rewrite at h
          split at h
          · simp only at h
            exact path_of_contain h
          · obtain rfl := Except.ok.inj h
            rfl
        · obtain rfl := Except.ok.inj h
          exact path_of_shown

-- ============================================================== many files

/-- Each of the paths leads to a file, no two of them to the same. -/
structure Separate (store : Store) (paths : List String) : Prop where
  file : ∀ p ∈ paths, ∃ l b, store.locate p = .ok l ∧ store.at? l = some (.file b)
  apart : paths.Pairwise fun p q => store.locate p ≠ store.locate q

/-- The files that paths lead to have been processed, and the store is
otherwise as it was. -/
structure Reworked (mode : Mode) (s : Settings) (store : Store) (paths : List String)
    (after : Store) : Prop where
  outline : after.outline = store.outline
  processed : ∀ p ∈ paths, ∀ l b, store.locate p = .ok l →
    store.at? l = some (.file b) → after.at? l = some (.file (rework mode s p b).1)
  other : ∀ l b, (∀ p ∈ paths, store.locate p ≠ .ok l) →
    store.at? l = some (.file b) → after.at? l = some (.file b)

/-- Files that are found lie apart. -/
theorem separate_of_findFiles {found : List Found} (hstore : store.IsNamed)
    (h : findFiles store s paths = .ok found) :
    Separate store (found.map (·.path)) := by
  obtain ⟨hproper, hnodup⟩ := isProper_of_findFiles hstore h
  constructor
  · intro p hp
    obtain ⟨c, hc, rfl⟩ := List.mem_map.1 hp
    obtain ⟨hloc, b, hb⟩ := hproper c hc
    exact ⟨c.location, b, hloc, hb⟩
  · rw [List.pairwise_map]
    refine (List.pairwise_map.1 hnodup).imp_of_mem fun hc hd hcd heq => ?_
    rw [(hproper _ hc).1, (hproper _ hd).1] at heq
    exact hcd (Except.ok.inj heq)

/-- There is one way to have processed files. -/
theorem Reworked.unique {other : Store} (hstore : store.IsNamed)
    (h : Reworked mode s store paths after) (h' : Reworked mode s store paths other) :
    after = other := by
  refine Store.eq_of_files (hstore.of_outline_eq h.outline)
    (h.outline.trans h'.outline.symm) fun l b hb => ?_
  obtain ⟨c, hc⟩ := Store.exists_file_of_outline_eq h.outline hb
  by_cases hl : ∃ p ∈ paths, store.locate p = .ok l
  · obtain ⟨p, hp, hl⟩ := hl
    rw [h'.processed p hp l c hl hc, ← hb, h.processed p hp l c hl hc]
  · have hl : ∀ p ∈ paths, store.locate p ≠ .ok l := fun p hp hpl => hl ⟨p, hp, hpl⟩
    rw [h'.other l c hl hc, ← hb, h.other l c hl hc]

/-- What putting a file in the place of another does to paths that lead
elsewhere. -/
theorem Separate.of_putAt {p : String} (h : Separate store (p :: paths))
    (hl : store.locate p = .ok l) (hfile : store.at? l = some (.file content))
    (new : Bytes) : Separate (store.putAt l (.file new)) paths := by
  have hloc : ∀ q, (store.putAt l (.file new)).locate q = store.locate q :=
    fun q => Store.locate_eq_of_outline_eq (Store.outline_putAt hfile)
  obtain ⟨hp, hapart⟩ := List.pairwise_cons.1 h.apart
  constructor
  · intro q hq
    obtain ⟨m, b, hm, hb⟩ := h.file q (List.mem_cons_of_mem p hq)
    refine ⟨m, b, (hloc q).trans hm, Store.at?_putAt_of_ne hfile hb ?_⟩
    rintro rfl
    exact hp q hq (hl.trans hm.symm)
  · simpa only [hloc] using hapart

/-- Files that lie apart are processed as if each were the only one. -/
theorem processEach_of_separate (h : Separate store paths)
    (hok : ∀ p ∈ paths, ∃ r, (processFile store mode s p).2 = .ok r) :
    ∃ last results, processEach mode s store paths = (last, .ok results)
      ∧ Reworked mode s store paths last
      ∧ (results.map Except.ok = paths.map fun p => (processFile store mode s p).2)
      ∧ results.map (·.path) = paths := by
  induction paths generalizing store with
  | nil => exact ⟨store, [], rfl, ⟨rfl, by simp, fun l b _ hb => hb⟩, rfl, rfl⟩
  | cons p paths ih =>
      obtain ⟨l, content, hl, hfile⟩ := h.file p List.mem_cons_self
      obtain ⟨hp, -⟩ := List.pairwise_cons.1 h.apart
      have hfirst := processFile_eq_rework mode s hl hfile
      obtain ⟨r, hr⟩ := hok p List.mem_cons_self
      generalize hnext : store.putAt l (.file (rework mode s p content).1) = next at hfirst
      have hsep : Separate next paths := hnext ▸ h.of_putAt hl hfile _
      have hout : next.outline = store.outline := hnext ▸ Store.outline_putAt hfile
      have hloc : ∀ q, next.locate q = store.locate q :=
        fun q => Store.locate_eq_of_outline_eq hout
      have hkeep : ∀ m b, m ≠ l → store.at? m = some (.file b) →
          next.at? m = some (.file b) :=
        fun m b hne hb => hnext ▸ Store.at?_putAt_of_ne hfile hb hne
      have happart : ∀ q ∈ paths, ∀ m, store.locate q = .ok m → m ≠ l := by
        rintro q hq m hm rfl
        exact hp q hq (hl.trans hm.symm)
      have hsame : ∀ q ∈ paths, (processFile next mode s q).2
          = (processFile store mode s q).2 := by
        intro q hq
        obtain ⟨m, b, hm, hb⟩ := h.file q (List.mem_cons_of_mem p hq)
        rw [processFile_eq_rework mode s hm hb,
          processFile_eq_rework mode s ((hloc q).trans hm) (hkeep m b (happart q hq m hm) hb)]
      obtain ⟨last, results, heach, hlast, hresults, hpaths⟩ := ih hsep fun q hq => by
        rw [hsame q hq]
        exact hok q (List.mem_cons_of_mem p hq)
      have hpath : r.path = p := path_of_rework (by rw [← hr, hfirst])
      refine ⟨last, r :: results, ?_, ⟨hlast.outline.trans hout, ?_, ?_⟩, ?_,
        by rw [List.map_cons, hpath, hpaths]⟩
      · have hstep : processFile store mode s p = (next, .ok r) := by
          rw [hfirst] at hr ⊢
          exact congrArg (next, ·) hr
        rw [processEach, hstep]
        simp only [heach]
      · intro q hq m b hm hb
        rcases List.mem_cons.1 hq with rfl | hq
        · obtain rfl := Except.ok.inj (hl.symm.trans hm)
          obtain rfl := Entry.file.inj (Option.some.inj (hfile.symm.trans hb))
          refine hlast.other l _ (fun q hq hql => ?_) (hnext ▸ Store.at?_putAt_self hfile)
          exact happart q hq l ((hloc q).symm.trans hql) rfl
        · exact hlast.processed q hq m b ((hloc q).trans hm)
            (hkeep m b (happart q hq m hm) hb)
      · intro m b hm hb
        refine hlast.other m b (fun q hq hqm => ?_) (hkeep m b ?_ hb)
        · exact hm q (List.mem_cons_of_mem p hq) ((hloc q).symm.trans hqm)
        · rintro rfl
          exact hm p List.mem_cons_self hl
      · rw [List.map_cons, List.map_cons, hresults, hr, List.map_congr_left hsame]

end Batch

end Codemod
