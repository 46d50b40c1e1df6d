/-
Processing several files at a time.

A worker looks at the size of its file, reads it, transforms the text,
empties the file and writes it (`Stage`); the workers of a pool take these
steps in any order, as many of them at a time as the pool has, and the
results arrive in any order (`Step`).

What carries the proof is that each worker still has to do what makes of
its file, as it is now, what processing makes of the file as it was
(`Stage.rest`): a step of the worker keeps that (`Stage.advance_spec`), and
the steps of the others do not touch the file. When all results have
arrived nothing is left to do, whatever the order was.

Main statement: `pool_agrees_with_sequence`.
-/
import Mathlib.Data.List.Pairwise
import Mathlib.Logic.Relation
import Codemod.Proofs.Batch.Isolation

namespace Codemod.Batch

variable {mode : Mode} {s : Settings} {workers : Nat}

-- =============================================================== workers

/-- How far a worker has come with a file. -/
inductive Stage where
  /-- It has not begun. -/
  | queued
  /-- The file is not too large. -/
  | measured
  /-- The text of the file has been read. -/
  | loaded (cs : List Char)
  /-- The file has been emptied, and is to hold the new text. -/
  | emptied (r : TransformResult)
  /-- The file has been processed. -/
  | finished (outcome : Except Fault FileResult)

namespace Stage

/-- What a worker does next. -/
def advance (mode : Mode) (s : Settings) (store : Store) (path : String) :
    Stage → Store × Stage
  | queued =>
    match store.readBytes path with
    | .error f => (store, finished (contain path (.file f path)))
    | .ok content =>
      match isTooLarge s content with
      | .error f => (store, finished (contain path f))
      | .ok true =>
        (store, finished (.ok
          { path := path, status := .skipped, reason := "file too large" }))
      | .ok false => (store, measured)
  | measured =>
    match store.readBytes path with
    | .error f => (store, finished (contain path (.file f path)))
    | .ok content =>
      match Utf8.read content with
      | .error f => (store, finished (contain path f))
      | .ok cs => (store, loaded cs)
  | loaded cs =>
    match s.transform (Text.ofChars cs) with
    | .error f => (store, finished (contain path f))
    | .ok r =>
      if r.modified && mode == .write then
        match store.writeBytes path [] with
        | .error f => (store, finished (contain path (.file f path)))
        | .ok next => (next, emptied r)
      else (store, finished (.ok (shown mode path (Text.ofChars cs) r)))
  | emptied r =>
    match r.code.toChars? with
    | none => (store, finished (contain path (.unencodable .utf8 r.code)))
    | some ds =>
      match store.writeBytes path (Utf8.encode ds) with
      | .error f => (store, finished (contain path (.file f path)))
      | .ok next => (next, finished (.ok (changed path r)))
  | finished outcome => (store, finished outcome)

/-- What is left to be done with a file: what will be in it, and the
outcome. -/
def rest (mode : Mode) (s : Settings) (path : String) (content : Bytes) :
    Stage → Bytes × Except Fault FileResult
  | queued => rework mode s path content
  | measured => reworkSmall mode s path content
  | loaded cs => reworkText mode s path content cs
  | emptied r => rewrite path content r
  | finished outcome => (content, outcome)

/-- A bound on the steps left until the result has arrived. -/
def rank : Stage → Nat
  | queued => 5
  | measured => 4
  | loaded _ => 3
  | emptied _ => 2
  | finished _ => 1

/-- The file has been processed. -/
def isFinished : Stage → Bool
  | finished _ => true
  | _ => false

/-- A worker is busy with the file. -/
def isActive : Stage → Bool
  | queued => false
  | finished _ => false
  | _ => true

variable {store : Store} {path : String} {l : Location} {content : Bytes}

/-- A step puts something in the place of the file, and leaves to be done
what makes of it what was to be made of the file before. -/
theorem advance_spec (mode : Mode) (s : Settings) (h : store.locate path = .ok l)
    (hl : store.at? l = some (.file content)) (stage : Stage)
    (hstage : stage.isFinished = false) :
    ∃ new next, stage.advance mode s store path = (store.putAt l (.file new), next)
      ∧ next.rest mode s path new = stage.rest mode s path content
      ∧ next.rank < stage.rank := by
  have hsame := Store.putAt_of_at? hl
  have hread : store.readBytes path = .ok content :=
    Store.readBytes_eq_ok_iff.2 ⟨l, h, hl⟩
  have hwrite (new : Bytes) := (Store.writeBytes_of_locate new h hl).1
  cases stage with
  | queued =>
      refine ⟨content, ?_⟩
      rw [advance, hread, hsame, rest, rework]
      simp only
      cases isTooLarge s content with
      | error f => exact ⟨_, rfl, rfl, by simp [rank]⟩
      | ok large =>
          cases large with
          | true => exact ⟨_, rfl, rfl, by simp [rank]⟩
          | false => exact ⟨_, rfl, rfl, by simp [rank]⟩
  | measured =>
      refine ⟨content, ?_⟩
      rw [advance, hread, hsame, rest, reworkSmall]
      simp only
      cases Utf8.read content with
      | error f => exact ⟨_, rfl, rfl, by simp [rank]⟩
      | ok cs => exact ⟨_, rfl, rfl, by simp [rank]⟩
  | loaded cs =>
      rw [advance, rest, reworkText]
      cases s.transform (Text.ofChars cs) with
      | error f => exact ⟨content, _, by rw [hsame], rfl, by simp [rank]⟩
      | ok r =>
          simp only [hwrite]
          split
          · exact ⟨[], _, rfl, rfl, by simp [rank]⟩
          · exact ⟨content, _, by rw [hsame], rfl, by simp [rank]⟩
  | emptied r =>
      rw [advance, rest, rewrite]
      cases r.code.toChars? with
      | none => exact ⟨content, _, by rw [hsame], rfl, by simp [rank]⟩
      | some ds =>
          simp only [hwrite]
          exact ⟨_, _, rfl, rfl, by simp [rank]⟩
  | finished outcome => cases hstage

end Stage

-- ================================================================== pools

/-- A file that has been handed to a pool. -/
structure Job where
  path : String
  stage : Stage

/-- A pool at work. -/
structure Pool where
  /-- The files as they are. -/
  store : Store
  /-- The jobs whose results have not arrived. -/
  jobs : List Job
  /-- The results, in the order in which they have arrived. -/
  arrived : List FileResult

/-- The result of a worker: a fault is the result of its file. -/
def collect (path : String) : Except Fault FileResult → FileResult
  | .ok r => r
  | .error f => failure path f

namespace Pool

/-- A pool that has been given files. -/
def start (store : Store) (paths : List String) : Pool :=
  ⟨store, paths.map (⟨·, .queued⟩), []⟩

/-- What can happen in a pool. -/
inductive Step (mode : Mode) (s : Settings) (workers : Nat) : Pool → Pool → Prop where
  /-- A worker goes on with its file, or one that is free takes a file. -/
  | work {store before job later arrived}
      (hstage : job.stage.isFinished = false)
      (hfree : job.stage.isActive = false →
        (before ++ later).countP (·.stage.isActive) < workers) :
      Step mode s workers ⟨store, before ++ job :: later, arrived⟩
        ⟨(job.stage.advance mode s store job.path).1,
          before ++ ⟨job.path, (job.stage.advance mode s store job.path).2⟩ :: later,
          arrived⟩
  /-- A result arrives. -/
  | arrive {store before path outcome later arrived} :
      Step mode s workers ⟨store, before ++ ⟨path, .finished outcome⟩ :: later, arrived⟩
        ⟨store, before ++ later, arrived ++ [collect path outcome]⟩

/-- What happens in a pool, one step after the other. -/
abbrev Runs (mode : Mode) (s : Settings) (workers : Nat) : Pool → Pool → Prop :=
  Relation.ReflTransGen (Step mode s workers)

/-- A bound on the steps of a pool. -/
def rank (p : Pool) : Nat := (p.jobs.map (·.stage.rank)).sum

variable {store : Store} {paths : List String} {p q : Pool}

-- ============================================================== invariant

/-- A pool that has been given files: for each file whose result has not
arrived it is still to be done what makes of it what processing makes of
it, and the results that have arrived are those of processing. -/
structure Sound (mode : Mode) (s : Settings) (store : Store) (paths : List String)
    (p : Pool) : Prop where
  outline : p.store.outline = store.outline
  submitted : (p.jobs.map (·.path) ++ p.arrived.map (·.path)).Perm paths
  waiting : ∀ job ∈ p.jobs, ∀ l b, store.locate job.path = .ok l →
    store.at? l = some (.file b) → ∃ c, p.store.at? l = some (.file c)
      ∧ job.stage.rest mode s job.path c = rework mode s job.path b
  arrived : ∀ r ∈ p.arrived, ∀ l b, store.locate r.path = .ok l →
    store.at? l = some (.file b) →
      p.store.at? l = some (.file (rework mode s r.path b).1)
        ∧ (rework mode s r.path b).2 = .ok r
  other : ∀ l b, (∀ path ∈ paths, store.locate path ≠ .ok l) →
    store.at? l = some (.file b) → p.store.at? l = some (.file b)

theorem sound_start : Sound mode s store paths (start store paths) where
  outline := rfl
  submitted := by
    have h : (paths.map (⟨·, .queued⟩ : String → Job)).map (·.path) = paths := by
      rw [List.map_map]
      exact List.map_id paths
    rw [start, List.map_nil, List.append_nil, h]
  waiting job hjob l b _ hb := by
    obtain ⟨path, -, rfl⟩ := List.mem_map.1 hjob
    exact ⟨b, hb, rfl⟩
  arrived r hr := by cases hr
  other l b _ hb := hb

variable {now : Store} {before later : List Job} {job : Job} {arrived : List FileResult}
  {l : Location} {b : Bytes}

/-- The file of a job is there. -/
theorem Sound.file (hsep : Separate store paths)
    (h : Sound mode s store paths ⟨now, before ++ job :: later, arrived⟩) :
    job.path ∈ paths
      ∧ ∃ l b, store.locate job.path = .ok l ∧ store.at? l = some (.file b) := by
  have hmem : job.path ∈ paths := h.submitted.mem_iff.1 (by simp)
  exact ⟨hmem, hsep.file job.path hmem⟩

/-- No other job has the file of a job. -/
theorem Sound.apart (hsep : Separate store paths)
    (h : Sound mode s store paths ⟨now, before ++ job :: later, arrived⟩)
    (hl : store.locate job.path = .ok l) :
    (∀ j ∈ before ++ later, store.locate j.path ≠ .ok l)
      ∧ ∀ r ∈ arrived, store.locate r.path ≠ .ok l := by
  have hfirst : (job.path :: ((before ++ later).map (·.path)
      ++ arrived.map (·.path))).Perm paths := by
    refine List.Perm.trans ?_ h.submitted
    exact (List.perm_middle.map Job.path).symm.append_right _
  have hapart := (hfirst.pairwise_iff fun hab hba => hab hba.symm).2 hsep.apart
  rw [List.pairwise_cons, hl] at hapart
  constructor
  · intro j hj
    exact (hapart.1 _ (List.mem_append_left _ (List.mem_map_of_mem hj))).symm
  · intro r hr
    exact (hapart.1 _ (List.mem_append_right _ (List.mem_map_of_mem hr))).symm

/-- A worker that goes on with its file keeps the pool sound. -/
theorem Sound.work (hsep : Separate store paths)
    (h : Sound mode s store paths ⟨now, before ++ job :: later, arrived⟩)
    (hstage : job.stage.isFinished = false) :
    Sound mode s store paths ⟨(job.stage.advance mode s now job.path).1,
      before ++ ⟨job.path, (job.stage.advance mode s now job.path).2⟩ :: later,
      arrived⟩ := by
  obtain ⟨hmem, l, b, hl, hb⟩ := h.file hsep
  obtain ⟨hjobs, harrived⟩ := h.apart hsep hl
  obtain ⟨c, hc, hrest⟩ := h.waiting job (by simp) l b hl hb
  have hlnow : now.locate job.path = .ok l :=
    (Store.locate_eq_of_outline_eq h.outline).trans hl
  obtain ⟨new, next, hadvance, hnext, -⟩ :=
    Stage.advance_spec mode s hlnow hc job.stage hstage
  rw [hadvance]
  have hkeep : ∀ m c, m ≠ l → now.at? m = some (.file c) →
      (now.putAt l (.file new)).at? m = some (.file c) :=
    fun m c hne hm => Store.at?_putAt_of_ne hc hm hne
  constructor
  · exact (Store.outline_putAt hc).trans h.outline
  · simpa using h.submitted
  · intro j hj m d hm hd
    by_cases hml : m = l
    · subst hml
      have hj : j = ⟨job.path, next⟩ := by
        rcases List.mem_append.1 hj with hj | hj
        · exact absurd hm (hjobs j (List.mem_append_left _ hj))
        · rcases List.mem_cons.1 hj with hj | hj
          · exact hj
          · exact absurd hm (hjobs j (List.mem_append_right _ hj))
      obtain rfl := Entry.file.inj (Option.some.inj (hb.symm.trans hd))
      subst hj
      exact ⟨new, Store.at?_putAt_self hc, hnext.trans hrest⟩
    · have hj : j ∈ before ++ job :: later := by
        rcases List.mem_append.1 hj with hj | hj
        · exact List.mem_append_left _ hj
        · rcases List.mem_cons.1 hj with rfl | hj
          · exact absurd (Except.ok.inj (hm.symm.trans hl)) hml
          · exact List.mem_append_right _ (List.mem_cons_of_mem _ hj)
      obtain ⟨c', hc', hrest'⟩ := h.waiting j hj m d hm hd
      exact ⟨c', hkeep m c' hml hc', hrest'⟩
  · intro r hr m d hm hd
    obtain ⟨hat, hres⟩ := h.arrived r hr m d hm hd
    refine ⟨hkeep m _ ?_ hat, hres⟩
    rintro rfl
    exact harrived r hr hm
  · intro m d hm hd
    refine hkeep m d ?_ (h.other m d hm hd)
    rintro rfl
    exact hm job.path hmem hl

/-- A result that arrives keeps the pool sound. -/
theorem Sound.arrive {path : String} {outcome : Except Fault FileResult}
    (hsep : Separate store paths)
    (hok : ∀ path ∈ paths, ∃ r, (processFile store mode s path).2 = .ok r)
    (h : Sound mode s store paths
      ⟨now, before ++ ⟨path, .finished outcome⟩ :: later, arrived⟩) :
    Sound mode s store paths
      ⟨now, before ++ later, arrived ++ [collect path outcome]⟩ := by
  obtain ⟨hmem, l, b, hl, hb⟩ := h.file hsep
  obtain ⟨c, hc, hrest⟩ := h.waiting ⟨path, .finished outcome⟩ (by simp) l b hl hb
  rw [Stage.rest] at hrest
  obtain ⟨r, hr⟩ := hok path hmem
  rw [processFile_eq_rework mode s hl hb] at hr
  have hout : outcome = .ok r := by
    rw [← hr, ← hrest]
  have hpath : r.path = path := path_of_rework hr
  subst hout
  rw [collect]
  constructor
  · exact h.outline
  · refine List.Perm.trans ?_ h.submitted
    simp only [List.map_append, List.map_cons, List.map_nil, hpath, List.append_assoc,
      List.cons_append]
    refine List.Perm.append_left _ ?_
    rw [← List.append_assoc]
    exact List.perm_append_singleton _ _
  · intro j hj
    refine h.waiting j ?_
    rcases List.mem_append.1 hj with hj | hj
    · exact List.mem_append_left _ hj
    · exact List.mem_append_right _ (List.mem_cons_of_mem _ hj)
  · intro q hq m d hm hd
    rcases List.mem_append.1 hq with hq | hq
    · exact h.arrived q hq m d hm hd
    · obtain rfl := List.mem_singleton.1 hq
      rw [hpath] at hm ⊢
      obtain rfl := Except.ok.inj (hl.symm.trans hm)
      obtain rfl := Entry.file.inj (Option.some.inj (hb.symm.trans hd))
      refine ⟨?_, hr⟩
      rw [← hrest]
      exact hc
  · exact h.other

theorem Sound.step (hsep : Separate store paths)
    (hok : ∀ path ∈ paths, ∃ r, (processFile store mode s path).2 = .ok r)
    (h : Sound mode s store paths p) (hstep : Step mode s workers p q) :
    Sound mode s store paths q := by
  cases hstep with
  | work hstage _ => exact h.work hsep hstage
  | arrive => exact h.arrive hsep hok

theorem Sound.runs (hsep : Separate store paths)
    (hok : ∀ path ∈ paths, ∃ r, (processFile store mode s path).2 = .ok r)
    (h : Sound mode s store paths p) (hruns : Runs mode s workers p q) :
    Sound mode s store paths q := by
  induction hruns with
  | refl => exact h
  | tail _ hstep ih => exact ih.step hsep hok hstep

/-- When all results have arrived, the files have been processed. -/
theorem Sound.over (hsep : Separate store paths) (h : Sound mode s store paths p)
    (hover : p.jobs = []) :
    Reworked mode s store paths p.store
      ∧ (p.arrived.map Except.ok).Perm
          (paths.map fun path => (processFile store mode s path).2) := by
  have hpaths := h.submitted
  rw [hover, List.map_nil, List.nil_append] at hpaths
  refine ⟨⟨h.outline, ?_, h.other⟩, ?_⟩
  · intro path hp l b hl hb
    obtain ⟨r, hr, rfl⟩ := List.mem_map.1 (hpaths.mem_iff.2 hp)
    exact (h.arrived r hr l b hl hb).1
  · have hresult : ∀ r ∈ p.arrived,
        Except.ok r = (processFile store mode s r.path).2 := by
      intro r hr
      obtain ⟨l, b, hl, hb⟩ := hsep.file r.path
        (hpaths.mem_iff.1 (List.mem_map_of_mem hr))
      rw [processFile_eq_rework mode s hl hb, (h.arrived r hr l b hl hb).2]
    have hmap : p.arrived.map Except.ok
        = (p.arrived.map (·.path)).map fun path => (processFile store mode s path).2 := by
      rw [List.map_congr_left hresult, List.map_map]
      rfl
    rw [hmap]
    exact hpaths.map _

-- ============================================================== progress

/-- A step brings a pool nearer to its end. -/
theorem rank_lt_of_step (hsep : Separate store paths) (h : Sound mode s store paths p)
    (hstep : Step mode s workers p q) : q.rank < p.rank := by
  cases hstep with
  | @work now before job later arrived hstage _ =>
      obtain ⟨-, l, b, hl, hb⟩ := h.file hsep
      obtain ⟨c, hc, -⟩ := h.waiting job (by simp) l b hl hb
      obtain ⟨new, next, hadvance, -, hrank⟩ := Stage.advance_spec mode s
        ((Store.locate_eq_of_outline_eq h.outline).trans hl) hc job.stage hstage
      simp only [rank, List.map_append, List.map_cons, List.sum_append, List.sum_cons,
        hadvance]
      omega
  | arrive =>
      simp only [rank, List.map_append, List.map_cons, List.sum_append, List.sum_cons,
        Stage.rank]
      omega

/-- While a result is missing something can happen. -/
theorem exists_step (mode : Mode) (s : Settings) (hworkers : 1 ≤ workers)
    (hp : p.jobs ≠ []) : ∃ q, Step mode s workers p q := by
  obtain ⟨now, jobs, arrived⟩ := p
  by_cases hactive : ∃ job ∈ jobs, job.stage.isActive = true
  · -- a worker that is busy can go on
    obtain ⟨job, hjob, hstage⟩ := hactive
    obtain ⟨before, later, rfl⟩ := List.append_of_mem hjob
    refine ⟨_, .work ?_ fun h => ?_⟩
    · cases hs : job.stage with
      | finished outcome =>
          rw [hs] at hstage
          cases hstage
      | _ => rfl
    · rw [hstage] at h
      cases h
  · obtain ⟨⟨path, stage⟩, later, rfl⟩ := List.exists_cons_of_ne_nil hp
    cases hs : stage with
    | finished outcome =>
        exact ⟨_, @Step.arrive mode s workers now [] path outcome later arrived⟩
    | _ =>
        -- no worker is busy, so one is free for the first file
        have hfree : later.countP (·.stage.isActive) < workers := by
          rw [List.countP_eq_zero.2 fun job hj ha =>
            hactive ⟨job, List.mem_cons_of_mem _ hj, ha⟩]
          exact hworkers
        exact ⟨_, @Step.work mode s workers now [] ⟨path, _⟩ later arrived rfl
          fun _ => hfree⟩

/-- A pool can be brought to its end from wherever it is. -/
theorem exists_over (hsep : Separate store paths)
    (hok : ∀ path ∈ paths, ∃ r, (processFile store mode s path).2 = .ok r)
    (hworkers : 1 ≤ workers) (h : Sound mode s store paths p) :
    ∃ q, Runs mode s workers p q ∧ q.jobs = [] := by
  induction hn : p.rank using Nat.strong_induction_on generalizing p with
  | _ n ih =>
      by_cases hp : p.jobs = []
      · exact ⟨p, .refl, hp⟩
      · obtain ⟨q, hstep⟩ := exists_step mode s hworkers hp
        obtain ⟨last, hruns, hlast⟩ :=
          ih q.rank (hn ▸ rank_lt_of_step hsep h hstep) (h.step hsep hok hstep) rfl
        exact ⟨last, .head hstep hruns, hlast⟩

end Pool

-- ================================================================= results

section Results

variable {rs rs' : List FileResult}

theorem perm_sortResults (rs : List FileResult) : (sortResults rs).Perm rs :=
  List.mergeSort_perm rs _

/-- Results of different files are in the order of their paths. -/
theorem pairwise_sortResults (h : (rs.map (·.path)).Nodup) :
    (sortResults rs).Pairwise fun a b => a.path < b.path := by
  have hle : (sortResults rs).Pairwise fun a b => (!(b.path < a.path)) = true := by
    refine List.pairwise_mergeSort (fun a b c hab hbc => ?_) (fun a b => ?_) rs
    · simp only [Bool.not_eq_true', decide_eq_false_iff_not, String.not_lt] at hab hbc ⊢
      exact String.le_trans hab hbc
    · simp only [Bool.or_eq_true, Bool.not_eq_true', decide_eq_false_iff_not,
        String.not_lt]
      exact String.le_total a.path b.path
  have hnodup : (sortResults rs).Pairwise fun a b => a.path ≠ b.path :=
    List.pairwise_map.1 (((perm_sortResults rs).map FileResult.path).nodup_iff.2 h)
  refine (hle.and hnodup).imp fun {a b} hab => ?_
  obtain ⟨hab, hne⟩ := hab
  simp only [Bool.not_eq_true', decide_eq_false_iff_not, String.not_lt] at hab
  by_contra hlt
  exact hne (String.le_antisymm hab (String.not_lt.1 hlt))

/-- The order in which results have come does not matter. -/
theorem sortResults_eq_of_perm (h : (rs.map (·.path)).Nodup) (hperm : rs.Perm rs') :
    sortResults rs = sortResults rs' := by
  have hsorted := pairwise_sortResults h
  have hsorted' := pairwise_sortResults ((hperm.map FileResult.path).nodup_iff.1 h)
  refine List.Perm.eq_of_pairwise (fun a b _ _ hab hba => ?_) hsorted hsorted'
    (((perm_sortResults rs).trans hperm).trans (perm_sortResults rs').symm)
  exact absurd (String.lt_trans hab hba) (String.lt_irrefl a.path)

end Results

-- ==================================================================== runs

variable {store last : Store} {raws files : List String} {found : List Found}
  {results : List FileResult}

/-- Where no fault escapes, workers make no difference. -/
theorem processPool_eq (h : processEach mode s store files = (last, .ok results)) :
    processPool mode s store files = (last, results) := by
  induction files generalizing store results with
  | nil =>
      rw [processEach] at h
      obtain ⟨rfl, hres⟩ := Prod.mk.inj h
      obtain rfl := Except.ok.inj hres
      rfl
  | cons path files ih =>
      rw [processEach] at h
      split at h
      · cases (Prod.mk.inj h).2
      · next next r hfirst =>
          split at h
          · next last' rs hrest =>
              obtain ⟨rfl, hres⟩ := Prod.mk.inj h
              obtain rfl := Except.ok.inj hres
              rw [processPool, hfirst]
              simp only [ih hrest]
          · cases (Prod.mk.inj h).2

theorem run_eq (hfound : findFiles store s raws = .ok found) {pooled : Bool}
    (hpool : usesPool s found.length = .ok pooled)
    (h : processEach mode s store (found.map (·.path)) = (last, .ok results)) :
    run store mode s raws = (last, .ok ⟨mode, sortResults results⟩) := by
  rw [run, hfound]
  simp only [List.length_map, hpool]
  cases pooled with
  | true => simp only [processPool_eq h]
  | false => simp only [h]

/-- If no fault ends the processing of a file, then a pool can always be
brought to its end, and whatever order its workers take turns in and its
results arrive in, it leaves the files as they are left by processing one
after the other, and its results, sorted, are the same. There is one for
each file that was found, in the order of the paths, which differ. -/
theorem pool_agrees_with_sequence (hstore : store.IsNamed)
    (hfound : findFiles store s raws = .ok found)
    (hok : ∀ c ∈ found, ∃ r, (processFile store mode s c.path).2 = .ok r)
    (hworkers : 1 ≤ workers) :
    ∃ last results, processEach mode s store (found.map (·.path)) = (last, .ok results)
      ∧ (∀ p, Pool.Runs mode s workers (.start store (found.map (·.path))) p →
          ∃ q, Pool.Runs mode s workers p q ∧ q.jobs = [])
      ∧ (∀ p, Pool.Runs mode s workers (.start store (found.map (·.path))) p →
          p.jobs = [] → p.store = last ∧ sortResults p.arrived = sortResults results)
      ∧ ((sortResults results).map (·.path)).Perm (found.map (·.path))
      ∧ (sortResults results).Pairwise (fun a b => a.path < b.path)
      ∧ ∀ pooled, usesPool s found.length = .ok pooled →
          run store mode s raws = (last, .ok ⟨mode, sortResults results⟩) := by
  have hsep := separate_of_findFiles hstore hfound
  have hall : ∀ path ∈ found.map (·.path),
      ∃ r, (processFile store mode s path).2 = .ok r := by
    intro path hp
    obtain ⟨c, hc, rfl⟩ := List.mem_map.1 hp
    exact hok c hc
  obtain ⟨last, results, heach, hlast, hresults, hpaths⟩ :=
    processEach_of_separate hsep hall
  have hsound : ∀ p, Pool.Runs mode s workers (.start store (found.map (·.path))) p →
      Pool.Sound mode s store (found.map (·.path)) p :=
    fun p hp => Pool.sound_start.runs hsep hall hp
  have hnodup : (results.map (·.path)).Nodup :=
    hpaths ▸ nodup_paths_of_findFiles hstore hfound
  refine ⟨last, results, heach, fun p hp => ?_, fun p hp hover => ?_, ?_, ?_,
    fun pooled hpool => run_eq hfound hpool heach⟩
  · exact Pool.exists_over hsep hall hworkers (hsound p hp)
  · obtain ⟨hstored, harrived⟩ := (hsound p hp).over hsep hover
    refine ⟨hstored.unique hstore hlast, (sortResults_eq_of_perm hnodup ?_).symm⟩
    rw [← hresults] at harrived
    exact ((List.map_perm_map_iff fun a b => Except.ok.inj).1 harrived).symm
  · exact ((perm_sortResults results).map _).trans (by rw [hpaths])
  · exact pairwise_sortResults hnodup

theorem exists_of_toBool {α : Type} {x : Except Fault α} (h : x.toBool = true) :
    ∃ a, x = .ok a := by
  cases x with
  | error f => cases h
  | ok a => exact ⟨a, rfl⟩

/-- A pool of two workers and two files, of which one is rewritten. -/
theorem pool_agrees_with_sequence_on_two_files :
    let store : Store :=
      ⟨[("a.js", .file (Utf8.encode "$(a).show()".toList)), ("b.js", .file [])]⟩
    ∃ found, findFiles store .default ["a.js", "b.js"] = .ok found
      ∧ found.map (·.path) = ["a.js", "b.js"]
      ∧ ∃ last results, processEach .write .default store ["a.js", "b.js"]
          = (last, .ok results)
        ∧ ∀ p, Pool.Runs .write .default 2 (.start store ["a.js", "b.js"]) p →
          p.jobs = [] → p.store = last ∧ sortResults p.arrived = sortResults results := by
  intro store
  have hfound : findFiles store .default ["a.js", "b.js"]
      = .ok [⟨"a.js", ["a.js"]⟩, ⟨"b.js", ["b.js"]⟩] := by
    simp only [store]
    cbv
  have hok : ∀ c ∈ [Found.mk "a.js" ["a.js"], ⟨"b.js", ["b.js"]⟩],
      ∃ r, (processFile store .write .default c.path).2 = .ok r := by
    intro c hc
    refine exists_of_toBool ?_
    rcases List.mem_cons.1 hc with rfl | hc
    · decide +kernel
    · obtain rfl := List.mem_singleton.1 hc
      decide +kernel
  obtain ⟨last, results, heach, -, hpool, -⟩ :=
    pool_agrees_with_sequence (by decide) hfound hok (by decide : 1 ≤ 2)
  exact ⟨_, hfound, rfl, last, results, heach, hpool⟩

end Codemod.Batch
