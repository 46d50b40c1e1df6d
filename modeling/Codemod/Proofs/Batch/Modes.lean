/-
What the modes have in common.

A file is either left alone, with the same result in every mode, or its
text is transformed into another (`rework_cases`). So a run that does not
write says of each file what a run that writes says of it
(`verdict_rework`). A file that has been written is left alone from then
on: it has line feeds only at the ends of its lines, because no rule
writes a carriage return, so it is read as it was written, and a
transformation that has converged makes nothing further of it
(`rework_again`).

Main statement: `modes_agree_and_settle`.
-/
import Codemod.Proofs.Batch.Pool
import Codemod.Proofs.Config.Settings
import Codemod.Proofs.Text.Utf8

namespace Codemod

/-- What is reported of a file in every mode. -/
def FileResult.verdict (r : FileResult) : String × FileStatus × List String :=
  (r.path, r.status, r.appliedRules)

/-- What is reported of the files in every mode. -/
def BatchResult.verdicts (b : BatchResult) : List (String × FileStatus × List String) :=
  b.files.map FileResult.verdict

namespace Batch

variable {store after last : Store} {mode : Mode} {s : Settings} {path : String}
  {raws files : List String} {content : Bytes} {r r' : FileResult}
  {t : TransformResult} {cs : List Char}

-- ================================================================ one file

/-- The file is small enough to be read, and its text is transformed. -/
structure Transforms (s : Settings) (content : Bytes) (cs : List Char)
    (t : TransformResult) : Prop where
  small : isTooLarge s content = .ok false
  read : Utf8.read content = .ok cs
  transform : s.transform (Text.ofChars cs) = .ok t

theorem Transforms.rework (h : Transforms s content cs t) :
    rework mode s path content
      = if t.modified && mode == .write then rewrite path [] t
        else (content, .ok (shown mode path (Text.ofChars cs) t)) := by
  rw [Batch.rework, h.small]
  simp only [reworkSmall, h.read, reworkText, h.transform]

theorem status_of_contain {f : Fault} (h : contain path f = .ok r) :
    r.status = .failed := by
  unfold contain at h
  split at h
  · obtain rfl := Except.ok.inj h
    rfl
  · cases h

/-- A file is left alone in every mode, or its text is transformed into
another. -/
theorem rework_cases (s : Settings) (path : String) (content : Bytes) :
    (∃ x, (∀ mode, rework mode s path content = (content, x))
        ∧ ∀ r, x = .ok r → r.status ≠ .changed)
      ∨ ∃ cs t, Transforms s content cs t ∧ t.modified = true := by
  have failed : ∀ f r, contain path f = .ok r → r.status ≠ .changed := fun f r h => by
    simp [status_of_contain h]
  cases hlarge : isTooLarge s content with
  | error f => exact Or.inl ⟨_, fun mode => by rw [rework, hlarge], failed f⟩
  | ok large =>
      cases large with
      | true =>
          refine Or.inl ⟨_, fun mode => by rw [rework, hlarge], fun r h => ?_⟩
          obtain rfl := Except.ok.inj h
          exact FileStatus.noConfusion
      | false =>
          cases hread : Utf8.read content with
          | error f =>
              exact Or.inl ⟨_, fun mode => by rw [rework, hlarge, reworkSmall, hread],
                failed f⟩
          | ok cs =>
              cases ht : s.transform (Text.ofChars cs) with
              | error f =>
                  refine Or.inl ⟨_, fun mode => ?_, failed f⟩
                  rw [rework, hlarge]
                  simp only [reworkSmall, hread, reworkText, ht]
              | ok t =>
                  have htransforms : Transforms s content cs t := ⟨hlarge, hread, ht⟩
                  cases hm : t.modified with
                  | true => exact Or.inr ⟨cs, t, htransforms, hm⟩
                  | false =>
                      refine Or.inl ⟨.ok { path := path, status := .unchanged },
                        fun mode => ?_, fun r h => ?_⟩
                      · rw [htransforms.rework, hm]
                        simp [shown, hm]
                      · obtain rfl := Except.ok.inj h
                        exact FileStatus.noConfusion

/-- What writing a transformed text leaves, unless a fault ends it. -/
theorem Transforms.rework_write (h : Transforms s content cs t)
    (hm : t.modified = true) (hr : (Batch.rework .write s path content).2 = .ok r) :
    ∃ ds, t.code = Text.ofChars ds
      ∧ Batch.rework .write s path content = (Utf8.encode ds, .ok (changed path t)) := by
  rw [h.rework, hm] at hr ⊢
  simp only [beq_self_eq_true, Bool.and_self, if_true, rewrite] at hr ⊢
  split at hr
  · cases hr
  · next ds hds => exact ⟨ds, Text.eq_ofChars_of_toChars? hds, rfl⟩

theorem Transforms.rework_shown (h : Transforms s content cs t) (hmode : mode ≠ .write) :
    Batch.rework mode s path content
      = (content, .ok (shown mode path (Text.ofChars cs) t)) := by
  rw [h.rework, if_neg (by simp [hmode])]

/-- Only a run in write mode changes a file. -/
theorem content_rework (hmode : mode ≠ .write) :
    (rework mode s path content).1 = content := by
  rcases rework_cases s path content with ⟨x, hx, -⟩ | ⟨cs, t, ht, -⟩
  · rw [hx]
  · rw [ht.rework_shown hmode]

/-- Every mode says of a file what a check says. -/
theorem verdict_rework (h : (rework mode s path content).2 = .ok r)
    (h' : (rework .check s path content).2 = .ok r') : r.verdict = r'.verdict := by
  rcases rework_cases s path content with ⟨x, hx, -⟩ | ⟨cs, t, ht, hm⟩
  · rw [hx] at h h'
    rw [Except.ok.inj (h.symm.trans h')]
  · rw [ht.rework_shown (by decide)] at h'
    obtain rfl := Except.ok.inj h'
    cases mode with
    | write =>
        obtain ⟨ds, -, hds⟩ := ht.rework_write hm h
        rw [hds] at h
        obtain rfl := Except.ok.inj h
        rw [shown, if_pos hm]
        rfl
    | check =>
        rw [ht.rework_shown (by decide)] at h
        rw [Except.ok.inj h]
    | diff =>
        rw [ht.rework_shown (by decide)] at h
        obtain rfl := Except.ok.inj h
        rw [shown, if_pos hm, shown, if_pos hm]
        rfl

/-- A file that has been written is small enough to be judged. -/
theorem isTooLarge_total (h : isTooLarge s content = .ok false) (other : Bytes) :
    ∃ large, isTooLarge s other = .ok large := by
  unfold isTooLarge at h ⊢
  split at h
  · exact ⟨_, rfl⟩
  · cases h

/-- What a converged transformation has written is left alone by a
check. -/
theorem rework_again (h : (rework .write s path content).2 = .ok r)
    (h' : (rework .check s path content).2 = .ok r')
    (hconv : ∀ cs t, Transforms s content cs t → t.converged = true) :
    ∃ q, (rework .check s path (rework .write s path content).1).2 = .ok q
      ∧ q.status ≠ .changed := by
  rcases rework_cases s path content with ⟨x, hx, hstatus⟩ | ⟨cs, t, ht, hm⟩
  · rw [hx] at h' ⊢
    exact ⟨r', by rw [hx, h'], hstatus r' h'⟩
  · obtain ⟨ds, hcode, hds⟩ := ht.rework_write hm h
    rw [hds]
    obtain ⟨large, hlarge⟩ := isTooLarge_total ht.small (Utf8.encode ds)
    cases large with
    | true => exact ⟨_, by rw [rework, hlarge], FileStatus.noConfusion⟩
    | false =>
        -- the text that has been read has no carriage return, so neither has the
        -- one that has been written, and it is read as it is
        have hunified : t.code.IsUnified := Settings.isUnified_of_transform ht.transform
          (Text.IsUnified.ofChars_iff.2 ?_)
        · have hread : Utf8.read (Utf8.encode ds) = .ok ds := by
            rw [Utf8.read_encode, Utf8.unifyLines_of_not_mem
              (Text.IsUnified.ofChars_iff.1 (hcode ▸ hunified))]
          obtain ⟨again, hagain, hsame⟩ :=
            Settings.transform_code ht.transform (hconv cs t ht)
          have htransforms : Transforms s (Utf8.encode ds) ds again :=
            ⟨hlarge, hread, hcode ▸ hagain⟩
          refine ⟨_, by rw [htransforms.rework_shown (by decide)], ?_⟩
          rw [shown, hsame]
          exact FileStatus.noConfusion
        · exact Utf8.not_mem_of_read ht.read

-- ==================================================================== runs

/-- No fault ends the processing of a file that is found, and every
transformation of one converges. -/
structure Smooth (store : Store) (s : Settings) (raws : List String) : Prop where
  contained : ∀ found, findFiles store s raws = .ok found → ∀ c ∈ found, ∀ mode,
    ∃ r, (processFile store mode s c.path).2 = .ok r
  converges : ∀ found, findFiles store s raws = .ok found → ∀ c ∈ found, ∀ cs t,
    source store s c.path = .ok (some cs) → s.transform (Text.ofChars cs) = .ok t →
    t.converged = true

/-- A run over files that are found returns. -/
theorem run_of_found {found : List Found} (hstore : store.IsNamed)
    (hpool : ∀ count, ∃ pooled, usesPool s count = .ok pooled)
    (hfound : findFiles store s raws = .ok found)
    (hok : ∀ c ∈ found, ∃ r, (processFile store mode s c.path).2 = .ok r) :
    ∃ last results, run store mode s raws = (last, .ok ⟨mode, sortResults results⟩)
      ∧ Reworked mode s store (found.map (·.path)) last
      ∧ (results.map Except.ok
          = (found.map (·.path)).map fun p => (processFile store mode s p).2)
      ∧ results.map (·.path) = found.map (·.path) := by
  have hall : ∀ p ∈ found.map (·.path), ∃ r, (processFile store mode s p).2 = .ok r := by
    rw [List.forall_mem_map]
    exact hok
  obtain ⟨last, results, heach, hlast, hresults, hpaths⟩ :=
    processEach_of_separate (separate_of_findFiles hstore hfound) hall
  obtain ⟨pooled, hpooled⟩ := hpool found.length
  exact ⟨last, results, run_eq hfound hpooled heach, hlast, hresults, hpaths⟩

theorem reworked_self (hmode : mode ≠ .write) : Reworked mode s store files store where
  outline := rfl
  processed p _ l b _ hb := by rw [content_rework hmode, hb]
  other _ _ _ hb := hb

/-- Results that agree file by file agree when they are sorted. -/
theorem verdict_sortResults {f g : String → Except Fault FileResult}
    {rs rs' : List FileResult} (h : rs.map Except.ok = files.map f)
    (h' : rs'.map Except.ok = files.map g)
    (hfg : ∀ p ∈ files, ∀ r r', f p = .ok r → g p = .ok r' → r.verdict = r'.verdict) :
    (sortResults rs).map FileResult.verdict
      = (sortResults rs').map FileResult.verdict := by
  have hsort : ∀ rs : List FileResult, (sortResults rs).map FileResult.verdict
      = (rs.map FileResult.verdict).mergeSort fun a b => !(b.1 < a.1) :=
    fun rs => List.map_mergeSort fun _ _ _ _ => rfl
  rw [hsort, hsort]
  congr 1
  induction files generalizing rs rs' with
  | nil =>
      obtain rfl := List.map_eq_nil_iff.1 h
      obtain rfl := List.map_eq_nil_iff.1 h'
      rfl
  | cons p files ih =>
      obtain ⟨r, rs, rfl, hr, h⟩ := List.map_eq_cons_iff.1 h
      obtain ⟨r', rs', rfl, hr', h'⟩ := List.map_eq_cons_iff.1 h'
      rw [List.forall_mem_cons] at hfg
      rw [List.map_cons, List.map_cons, hfg.1 r r' hr.symm hr'.symm, ih h h' hfg.2]

section Found

variable {found : List Found}

/-- What becomes of a file that is found, in every mode. -/
theorem Smooth.file (h : Smooth store s raws) (hstore : store.IsNamed)
    (hfound : findFiles store s raws = .ok found) {p : String}
    (hp : p ∈ found.map (·.path)) :
    ∃ l b, store.locate p = .ok l ∧ store.at? l = some (.file b)
      ∧ (∀ mode, ∃ r, (rework mode s p b).2 = .ok r)
      ∧ ∀ cs t, Transforms s b cs t → t.converged = true := by
  obtain ⟨l, b, hl, hb⟩ := (separate_of_findFiles hstore hfound).file p hp
  obtain ⟨c, hc, rfl⟩ := List.mem_map.1 hp
  refine ⟨l, b, hl, hb, fun mode => ?_, fun cs t ht => ?_⟩
  · have hr := h.contained found hfound c hc mode
    rwa [processFile_eq_rework mode s hl hb] at hr
  · refine h.converges found hfound c hc cs t ?_ ht.transform
    rw [source_of_at? hl hb, ht.small, ht.read]
    rfl

theorem Smooth.run (h : Smooth store s raws) (hstore : store.IsNamed)
    (hpool : ∀ count, ∃ pooled, usesPool s count = .ok pooled)
    (hfound : findFiles store s raws = .ok found) (mode : Mode) :
    ∃ last results, run store mode s raws = (last, .ok ⟨mode, sortResults results⟩)
      ∧ Reworked mode s store (found.map (·.path)) last
      ∧ (results.map Except.ok
          = (found.map (·.path)).map fun p => (processFile store mode s p).2)
      ∧ results.map (·.path) = found.map (·.path) :=
  run_of_found hstore hpool hfound fun c hc => h.contained found hfound c hc mode

/-- A check of the files that have been written finds nothing to change. -/
theorem Smooth.check_again (h : Smooth store s raws) (hstore : store.IsNamed)
    (hpool : ∀ count, ∃ pooled, usesPool s count = .ok pooled)
    (hfound : findFiles store s raws = .ok found)
    (hlast : Reworked .write s store (found.map (·.path)) last) :
    ∃ b, Batch.run last .check s raws = (last, .ok b)
      ∧ ∀ r ∈ b.files, r.status ≠ .changed := by
  have hnamed : last.IsNamed := hstore.of_outline_eq hlast.outline
  have hfound' : findFiles last s raws = .ok found :=
    (findFiles_eq_of_outline_eq hlast.outline).trans hfound
  have hagain : ∀ p ∈ found.map (·.path),
      ∃ q, (processFile last .check s p).2 = .ok q ∧ q.status ≠ .changed := by
    intro p hp
    obtain ⟨l, b, hl, hb, hmodes, hconv⟩ := h.file hstore hfound hp
    obtain ⟨r, hr⟩ := hmodes .write
    obtain ⟨r', hr'⟩ := hmodes .check
    rw [processFile_eq_rework .check s
      ((Store.locate_eq_of_outline_eq hlast.outline).trans hl)
      (hlast.processed p hp l b hl hb)]
    exact rework_again hr hr' hconv
  obtain ⟨after, results, hrun, hafter, hresults, -⟩ := run_of_found
    hnamed hpool hfound' fun c hc => by
      obtain ⟨q, hq, -⟩ := hagain c.path (List.mem_map_of_mem hc)
      exact ⟨q, hq⟩
  obtain rfl := hafter.unique hnamed (reworked_self (by decide))
  refine ⟨_, hrun, fun r hr => ?_⟩
  have hmem : (Except.ok r : Except Fault FileResult) ∈ results.map Except.ok :=
    List.mem_map_of_mem ((perm_sortResults results).mem_iff.1 hr)
  rw [hresults, List.mem_map] at hmem
  obtain ⟨p, hp, hpr⟩ := hmem
  obtain ⟨q, hq, hstatus⟩ := hagain p hp
  rwa [← Except.ok.inj (hpr.symm.trans hq)] at hstatus

end Found

/-- Runs that do not write leave the files as they are. Runs in all three
modes report the same paths with the same statuses and rules, one for
each file that is found. After a run that writes, a check over the same
paths returns, and none of its files has changed. -/
theorem modes_agree_and_settle {v : Value} (hstore : store.IsNamed)
    (hs : Config.checked v = .ok s) (h : Smooth store s raws) :
    (∀ mode, mode ≠ .write → (run store mode s raws).1 = store)
      ∧ (∀ mode, (run store mode s raws).2.map BatchResult.verdicts
          = (run store .check s raws).2.map BatchResult.verdicts)
      ∧ (∀ found, findFiles store s raws = .ok found → ∀ mode,
          ∃ b, (run store mode s raws).2 = .ok b
            ∧ (b.files.map (·.path)).Perm (found.map (·.path)))
      ∧ ∀ last b, run store .write s raws = (last, .ok b) →
          ∃ c, run last .check s raws = (last, .ok c)
            ∧ ∀ r ∈ c.files, r.status ≠ .changed := by
  have hpool := Config.usesPool_of_checked hs
  cases hfound : findFiles store s raws with
  | error f =>
      have hrun : ∀ mode, run store mode s raws = (store, .error f) := fun mode => by
        rw [run, hfound]
      simp [hrun]
  | ok found =>
      have hruns := h.run hstore hpool hfound
      refine ⟨fun mode hmode => ?_, fun mode => ?_, ?_, fun last b hb => ?_⟩
      · obtain ⟨last, results, hrun, hlast, -, -⟩ := hruns mode
        rw [hrun]
        exact hlast.unique hstore (reworked_self hmode)
      · obtain ⟨last, results, hrun, -, hresults, -⟩ := hruns mode
        obtain ⟨last', results', hrun', -, hresults', -⟩ := hruns .check
        rw [hrun, hrun']
        refine congrArg Except.ok (verdict_sortResults hresults hresults' ?_)
        intro p hp r r' hr hr'
        obtain ⟨l, b, hl, hb, -⟩ := h.file hstore hfound hp
        rw [processFile_eq_rework mode s hl hb] at hr
        rw [processFile_eq_rework .check s hl hb] at hr'
        exact verdict_rework hr hr'
      · rintro _ ⟨⟩ mode
        obtain ⟨last, results, hrun, -, -, hpaths⟩ := hruns mode
        exact ⟨_, by rw [hrun], ((perm_sortResults results).map _).trans (by rw [hpaths])⟩
      · obtain ⟨last', results, hrun, hlast, -, -⟩ := hruns .write
        obtain rfl : last' = last := (Prod.mk.inj (hrun.symm.trans hb)).1
        exact h.check_again hstore hpool hfound hlast

/-- A file that ends its lines with two characters is changed, and left
alone from then on. -/
theorem modes_agree_and_settle_on_a_file :
    let store : Store :=
      ⟨[("a.js", .file (Utf8.encode "$(a).show();\r\nfoo();\r\n".toList))]⟩
    ∃ last b, run store .write .default ["a.js"] = (last, .ok b)
      ∧ b.verdicts = [("a.js", .changed, ["show-hide-to-style-display"])]
      ∧ (run store .diff .default ["a.js"]).1 = store
      ∧ (run store .diff .default ["a.js"]).2.map BatchResult.verdicts = .ok b.verdicts
      ∧ ∃ c, run last .check .default ["a.js"] = (last, .ok c)
        ∧ ∀ r ∈ c.files, r.status ≠ .changed := by
  intro store
  have hfound : findFiles store .default ["a.js"] = .ok [⟨"a.js", ["a.js"]⟩] := by
    simp only [store]
    cbv
  have hverdicts : ((run store .write .default ["a.js"]).2.map
      BatchResult.verdicts).toOption
        = some [("a.js", .changed, ["show-hide-to-style-display"])] := by decide +kernel
  have hsmooth : Smooth store .default ["a.js"] := by
    constructor
    · intro found hf c hc mode
      obtain rfl := Except.ok.inj (hfound.symm.trans hf)
      obtain rfl := List.mem_singleton.1 hc
      refine exists_of_toBool ?_
      cases mode <;> decide +kernel
    · intro found hf c hc cs t hcs ht
      obtain rfl := Except.ok.inj (hfound.symm.trans hf)
      obtain rfl := List.mem_singleton.1 hc
      have htest : ((source store .default "a.js").toOption.join.bind fun cs =>
          (Settings.default.transform (Text.ofChars cs)).toOption.map (·.converged))
            = some true := by decide +kernel
      rw [hcs] at htest
      simpa [ht, Except.toOption] using htest
  have hchecked : Config.checked (.map []) = .ok .default := rfl
  obtain ⟨hstill, hagree, hreturns, hagain⟩ :=
    modes_agree_and_settle (by decide) hchecked hsmooth
  obtain ⟨b, hb, -⟩ := hreturns _ hfound .write
  have hrun : run store .write .default ["a.js"]
      = ((run store .write .default ["a.js"]).1, .ok b) := Prod.ext rfl hb
  rw [hb] at hverdicts
  refine ⟨_, b, hrun, Option.some.inj hverdicts, hstill .diff (by decide), ?_,
    hagain _ b hrun⟩
  rw [hagree .diff, ← hagree .write, hb]
  rfl

end Batch

end Codemod
