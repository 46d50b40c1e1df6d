/-
Which files are found, and in which order.

Where extensions and patterns are texts every name can be compared with
them, and what is below a folder is listed whatever the folder holds
(`filesBelow_spec`): the files that are wanted, and no others, those of a
folder before those of its folders, each in the order of their names. The
files for several paths are those that the paths stand for, one path after
the other, without the ones that have come up before
(`foldlM_candidates`). A path that leads nowhere is the only thing that can
go wrong.

Main statement: `findFiles_exact`.
-/
import Mathlib
import Codemod.Proofs.Files.Finding

namespace Codemod

variable {extensions excluded : List Text} {name : String} {names : List String}
  {e : Entry} {es : List (String × Entry)} {store : Store} {settings : Settings}
  {raw : String} {paths : List String}

-- ================================================================= names

/-- The name ends in one of the extensions. -/
def EndsIn (extensions : List Text) (name : String) : Prop :=
  ∃ t ∈ extensions, t <:+ Text.ofString name

/-- The name fits one of the patterns. -/
def FitsAny (excluded : List Text) (name : String) : Prop :=
  ∃ t ∈ excluded, Glob.fits t.display name = true

instance (extensions : List Text) (name : String) : Decidable (EndsIn extensions name) :=
  inferInstanceAs (Decidable (∃ t ∈ extensions, _))

instance (excluded : List Text) (name : String) : Decidable (FitsAny excluded name) :=
  inferInstanceAs (Decidable (∃ t ∈ excluded, _))

namespace NameFilter

/-- The filter with texts for extensions and patterns. -/
def ofTexts (extensions excluded : List Text) : NameFilter :=
  ⟨extensions.map .text, some (.list (excluded.map .text))⟩

theorem anyText_texts (test : Text → Bool) (ts : List Text) :
    anyText test (ts.map .text) = .ok (ts.any test) := by
  induction ts with
  | nil => rfl
  | cons t ts ih =>
      rw [List.map_cons, anyText, List.any_cons, ih]
      cases test t <;> rfl

theorem hasExtension_ofTexts :
    (ofTexts extensions excluded).hasExtension name
      = .ok (decide (EndsIn extensions name)) := by
  rw [hasExtension, ofTexts, anyText_texts]
  refine congrArg Except.ok (Bool.eq_iff_iff.2 ?_)
  rw [List.any_eq_true, decide_eq_true_iff]
  refine exists_congr fun t => and_congr_right fun _ => ?_
  rw [List.isPrefixOf_iff_prefix, List.reverse_prefix]

theorem excludes_ofTexts :
    (ofTexts extensions excluded).excludes name = .ok (decide (FitsAny excluded name)) := by
  have hany := anyText_texts (fun t => Glob.fits t.display name) excluded
  refine hany.trans (congrArg Except.ok (Bool.eq_iff_iff.2 ?_))
  rw [List.any_eq_true, decide_eq_true_iff]
  rfl

theorem admits_ofTexts :
    (ofTexts extensions excluded).admits name
      = .ok (decide (EndsIn extensions name ∧ ¬ FitsAny excluded name)) := by
  rw [admits, hasExtension_ofTexts]
  by_cases hend : EndsIn extensions name
  · simp only [hend, decide_true, excludes_ofTexts, true_and, decide_not]
    rfl
  · simp only [hend, decide_false, false_and]

end NameFilter

theorem filterM_ok {α : Type} (p : α → Bool) (l : List α) :
    (l.filterM fun a => (.ok (p a) : Except Fault Bool)) = .ok (l.filter p) := by
  have haux : ∀ l acc : List α,
      (l.filterAuxM (fun a => (.ok (p a) : Except Fault Bool)) acc)
        = .ok ((l.filter p).reverse ++ acc) := by
    intro l
    induction l with
    | nil => exact fun acc => rfl
    | cons a l ih =>
        intro acc
        refine (ih (bif p a then a :: acc else acc)).trans (congrArg Except.ok ?_)
        cases hp : p a
        · rw [List.filter_cons_of_neg (by simp [hp])]
          rfl
        · rw [List.filter_cons_of_pos hp, List.reverse_cons, List.append_assoc]
          rfl
  have hrev : (l.filterM fun a => (.ok (p a) : Except Fault Bool))
      = .ok ((l.filter p).reverse ++ []).reverse := by
    rw [List.filterM, haux]
    rfl
  rw [hrev, List.append_nil, List.reverse_reverse]

-- ================================================================ wanted

/-- The names lead from a folder to a file that is wanted there: it has
one of the extensions, and neither it nor a folder on the way fits a
pattern. -/
structure Entry.Wants (extensions excluded : List Text) (e : Entry) (names : List String) :
    Prop where
  file : ∃ b, e.at? names = some (.file b)
  extension : ∃ name, names.getLast? = some name ∧ EndsIn extensions name
  kept : ∀ name ∈ names, ¬ FitsAny excluded name

namespace Entry

theorem mem_of_lookup (h : es.lookup name = some e) : (name, e) ∈ es := by
  obtain ⟨ds, ds', rfl, -⟩ := List.lookup_eq_some_iff.1 h
  exact List.mem_append_right _ List.mem_cons_self

theorem Wants.ne_nil (h : e.Wants extensions excluded names) : names ≠ [] := by
  rintro rfl
  obtain ⟨_, hlast, -⟩ := h.extension
  cases hlast

theorem not_wants_file {b : Bytes} : ¬ (Entry.file b).Wants extensions excluded names := by
  intro h
  obtain ⟨name, rest, rfl⟩ := List.exists_cons_of_ne_nil h.ne_nil
  obtain ⟨_, hat⟩ := h.file
  rw [at?] at hat
  cases hat

/-- A folder wants its own files by their names. -/
theorem wants_singleton (hes : areNamed es = true) :
    (Entry.folder es).Wants extensions excluded [name]
      ↔ (∃ b, (name, Entry.file b) ∈ es) ∧ EndsIn extensions name
        ∧ ¬ FitsAny excluded name := by
  constructor
  · rintro ⟨⟨b, hb⟩, ⟨last, hlast, hend⟩, hkept⟩
    obtain rfl : name = last := Option.some.inj hlast
    refine ⟨⟨b, ?_⟩, hend, hkept name List.mem_cons_self⟩
    rw [at?] at hb
    split at hb
    · next e he =>
        obtain rfl : e = .file b := by simpa [at?.eq_def] using hb
        exact mem_of_lookup he
    · cases hb
  · rintro ⟨⟨b, hb⟩, hend, hkept⟩
    obtain ⟨hlookup, -, -⟩ := lookup_of_mem hes hb
    refine ⟨⟨b, ?_⟩, ⟨name, rfl, hend⟩, by simpa using hkept⟩
    rw [at?_cons_of_lookup hlookup]
    exact at?.eq_def _ []

/-- Of what is below its folders it wants what the folders want, unless
the folder itself fits a pattern. -/
theorem wants_cons (hes : areNamed es = true) (hnames : names ≠ []) :
    (Entry.folder es).Wants extensions excluded (name :: names)
      ↔ ∃ inner, (name, Entry.folder inner) ∈ es ∧ ¬ FitsAny excluded name
        ∧ (Entry.folder inner).Wants extensions excluded names := by
  have hlast : (name :: names).getLast? = names.getLast? := by
    obtain ⟨next, rest, rfl⟩ := List.exists_cons_of_ne_nil hnames
    exact List.getLast?_cons_cons
  constructor
  · rintro ⟨⟨b, hb⟩, hend, hkept⟩
    rw [at?] at hb
    split at hb
    · next e he =>
        cases e with
        | file c =>
            obtain ⟨next, rest, rfl⟩ := List.exists_cons_of_ne_nil hnames
            rw [at?] at hb
            cases hb
        | folder inner =>
            exact ⟨inner, mem_of_lookup he, hkept name List.mem_cons_self, ⟨b, hb⟩,
              hlast ▸ hend, fun n hn => hkept n (List.mem_cons_of_mem name hn)⟩
    · cases hb
  · rintro ⟨inner, hinner, hname, ⟨b, hb⟩, hend, hkept⟩
    obtain ⟨hlookup, -, -⟩ := lookup_of_mem hes hinner
    refine ⟨⟨b, ?_⟩, hlast ▸ hend, List.forall_mem_cons.2 ⟨hname, hkept⟩⟩
    rw [at?_cons_of_lookup hlookup]
    exact hb

/-- What a folder wants is among its files or below its folders. -/
theorem wants_folder (hes : areNamed es = true) :
    (Entry.folder es).Wants extensions excluded names
      ↔ (∃ name, [name] = names ∧ (∃ b, (name, Entry.file b) ∈ es)
          ∧ EndsIn extensions name ∧ ¬ FitsAny excluded name)
        ∨ ∃ name rest, name :: rest = names
          ∧ ∃ inner, (name, Entry.folder inner) ∈ es ∧ ¬ FitsAny excluded name
            ∧ (Entry.folder inner).Wants extensions excluded rest := by
  constructor
  · intro h
    obtain ⟨name, rest, rfl⟩ := List.exists_cons_of_ne_nil h.ne_nil
    by_cases hrest : rest = []
    · subst hrest
      exact Or.inl ⟨name, rfl, (wants_singleton hes).1 h⟩
    · exact Or.inr ⟨name, rest, rfl, (wants_cons hes hrest).1 h⟩
  · rintro (⟨name, rfl, h⟩ | ⟨name, rest, rfl, inner, hinner, hname, h⟩)
    · exact (wants_singleton hes).2 h
    · exact (wants_cons hes h.ne_nil).2 ⟨inner, hinner, hname, h⟩

theorem nodup_of_areNamed (h : areNamed es = true) : (es.map (·.1)).Nodup := by
  induction es with
  | nil => exact List.nodup_nil
  | cons p es ih =>
      obtain ⟨name, e⟩ := p
      obtain ⟨-, hnone, -, hes⟩ := areNamed_cons.1 h
      rw [List.map_cons, List.nodup_cons]
      refine ⟨fun hmem => ?_, ih hes⟩
      obtain ⟨⟨_, f⟩, hf, rfl⟩ := List.mem_map.1 hmem
      rw [(lookup_of_mem hes hf).1] at hnone
      cases hnone

end Entry

-- ================================================================= order

/-- The order in which the files of a folder are found: its own before
those of its folders, and each by the order of the names. -/
inductive ReadBefore : Location → Location → Prop
  | files {a b : String} (h : a < b) : ReadBefore [a] [b]
  | beforeFolders {a b : String} {ms : Location} (hms : ms ≠ []) : ReadBefore [a] (b :: ms)
  | folders {a b : String} {ns ms : Location} (h : a < b) (hns : ns ≠ []) (hms : ms ≠ []) :
      ReadBefore (a :: ns) (b :: ms)
  | within {a : String} {ns ms : Location} (h : ReadBefore ns ms) :
      ReadBefore (a :: ns) (a :: ms)

/-- Sorted by keys that differ, each key is less than the next. -/
theorem pairwise_lt_mergeSort {α : Type} (key : α → String) {l : List α}
    (h : (l.map key).Nodup) :
    (l.mergeSort fun a b => !(key b < key a)).Pairwise fun a b => key a < key b := by
  let le : α → α → Bool := fun a b => !(key b < key a)
  have hle : ∀ a b, le a b = true ↔ key a ≤ key b := by
    intro a b
    rw [Bool.not_eq_true', decide_eq_false_iff_not, not_lt]
  have hsorted : (l.mergeSort le).Pairwise fun a b => le a b = true :=
    List.pairwise_mergeSort
      (fun a b c hab hbc => (hle a c).2 (((hle a b).1 hab).trans ((hle b c).1 hbc)))
      (fun a b => by
        rw [Bool.or_eq_true, hle, hle]
        exact le_total _ _) l
  have hne : (l.mergeSort le).Pairwise fun a b => key a ≠ key b :=
    List.pairwise_map.1 (((List.mergeSort_perm l le).map key).nodup_iff.2 h)
  exact (hsorted.and hne).imp fun ⟨hab, hne⟩ => lt_of_le_of_ne ((hle _ _).1 hab) hne

theorem fileNames_sublist : (fileNames es).Sublist (es.map (·.1)) := by
  induction es with
  | nil => exact List.Sublist.slnil
  | cons p es ih =>
      obtain ⟨name, e⟩ := p
      cases e with
      | file b => exact ih.cons_cons name
      | folder inner => exact ih.cons name

theorem mem_fileNames : name ∈ fileNames es ↔ ∃ b, (name, Entry.file b) ∈ es := by
  refine ⟨file_of_mem_fileNames, fun ⟨b, hb⟩ => ?_⟩
  exact List.mem_filterMap.2 ⟨_, hb, rfl⟩

/-- The files of a folder in order, and after them those of its folders. -/
theorem pairwise_readBefore {own : List String} {folders : List (String × List Location)}
    (hown : own.Nodup) (hfolders : (folders.map (·.1)).Nodup)
    (hinner : ∀ p ∈ folders, p.2.Pairwise ReadBefore)
    (hne : ∀ p ∈ folders, ∀ names ∈ p.2, names ≠ []) :
    ((sortNames own).map ([·])
      ++ (folders.mergeSort fun a b => !(b.1 < a.1)).flatMap fun (name, found) =>
        found.map (name :: ·)).Pairwise ReadBefore := by
  have hperm := List.mergeSort_perm folders fun a b => !(b.1 < a.1)
  refine List.pairwise_append.2 ⟨?_, List.pairwise_flatMap.2 ⟨?_, ?_⟩, ?_⟩
  · refine List.pairwise_map.2 ((pairwise_lt_mergeSort id ?_).imp .files)
    rwa [List.map_id]
  · rintro ⟨name, found⟩ hp
    exact List.pairwise_map.2 ((hinner _ (hperm.mem_iff.1 hp)).imp .within)
  · have hsorted := pairwise_lt_mergeSort Prod.fst hfolders
    refine hsorted.imp_of_mem ?_
    rintro ⟨a, found⟩ ⟨b, further⟩ ha hb hab _ hn _ hm
    obtain ⟨ns, hns, rfl⟩ := List.mem_map.1 hn
    obtain ⟨ms, hms, rfl⟩ := List.mem_map.1 hm
    exact .folders hab (hne _ (hperm.mem_iff.1 ha) ns hns)
      (hne _ (hperm.mem_iff.1 hb) ms hms)
  · rintro _ hn _ hm
    obtain ⟨a, -, rfl⟩ := List.mem_map.1 hn
    obtain ⟨⟨b, found⟩, hb, hm⟩ := List.mem_flatMap.1 hm
    obtain ⟨ms, hms, rfl⟩ := List.mem_map.1 hm
    exact .beforeFolders (hne _ (hperm.mem_iff.1 hb) ms hms)

-- ========================================================= below a folder

mutual

/-- The wanted files are what is found, each of them once, in order. -/
theorem filesBelow_spec (e : Entry) (he : e.isNamed = true) :
    ∃ found, filesBelow (.ofTexts extensions excluded) e = .ok found
      ∧ found.Pairwise ReadBefore
      ∧ ∀ names, names ∈ found ↔ e.Wants extensions excluded names :=
  match e with
  | .file b => ⟨[], by rw [filesBelow], List.Pairwise.nil, fun names =>
      ⟨fun h => absurd h List.not_mem_nil, fun h => absurd h Entry.not_wants_file⟩⟩
  | .folder es => by
      rw [Entry.isNamed] at he
      obtain ⟨folders, hfolders, hsub, hinner, hmem⟩ := foldersBelow_spec es he
      have hnodup := Entry.nodup_of_areNamed he
      have hown : (fileNames es).filterM (NameFilter.ofTexts extensions excluded).admits
          = .ok ((fileNames es).filter fun name =>
              decide (EndsIn extensions name ∧ ¬ FitsAny excluded name)) := by
        rw [← filterM_ok]
        exact congrArg (List.filterM · _) (funext fun name => NameFilter.admits_ofTexts)
      refine ⟨_, by rw [filesBelow, hown, hfolders], ?_, fun names => ?_⟩
      · refine pairwise_readBefore ((fileNames_sublist.nodup hnodup).filter _)
          (hsub.nodup hnodup) hinner fun p hp names hnames => ?_
        obtain ⟨_, -, -, hwants⟩ := (hmem p.1 names).1 ⟨p.2, hp, hnames⟩
        exact hwants.ne_nil
      · rw [Entry.wants_folder he, List.mem_append, List.mem_map, List.mem_flatMap]
        refine or_congr (exists_congr fun name => ?_) ⟨?_, ?_⟩
        · rw [sortNames, (List.mergeSort_perm _ _).mem_iff, List.mem_filter, mem_fileNames,
            decide_eq_true_iff, and_comm]
        · rintro ⟨⟨name, below⟩, hbelow, hnames⟩
          obtain ⟨rest, hrest, rfl⟩ := List.mem_map.1 hnames
          have hbelow := (List.mergeSort_perm folders _).mem_iff.1 hbelow
          exact ⟨name, rest, rfl, (hmem name rest).1 ⟨below, hbelow, hrest⟩⟩
        · rintro ⟨name, rest, rfl, hinner⟩
          obtain ⟨below, hbelow, hrest⟩ := (hmem name rest).2 hinner
          exact ⟨⟨name, below⟩, (List.mergeSort_perm folders _).mem_iff.2 hbelow,
            List.mem_map_of_mem hrest⟩

/-- What is found below the folders that do not fit a pattern. -/
theorem foldersBelow_spec (es : List (String × Entry)) (hes : Entry.areNamed es = true) :
    ∃ folders, foldersBelow (.ofTexts extensions excluded) es = .ok folders
      ∧ (folders.map (·.1)).Sublist (es.map (·.1))
      ∧ (∀ p ∈ folders, p.2.Pairwise ReadBefore)
      ∧ ∀ name names, (∃ below, (name, below) ∈ folders ∧ names ∈ below)
        ↔ ∃ inner, (name, Entry.folder inner) ∈ es ∧ ¬ FitsAny excluded name
          ∧ (Entry.folder inner).Wants extensions excluded names :=
  match es with
  | [] => ⟨[], by rw [foldersBelow], List.Sublist.slnil, by simp, by simp⟩
  | (name, .file b) :: es => by
      obtain ⟨-, -, -, hes⟩ := Entry.areNamed_cons.1 hes
      obtain ⟨folders, hfolders, hsub, hinner, hmem⟩ := foldersBelow_spec es hes
      refine ⟨folders, by rw [foldersBelow, hfolders], hsub.cons name, hinner, ?_⟩
      intro k names
      rw [hmem]
      simp
  | (name, .folder inner) :: es => by
      obtain ⟨-, -, hnamed, hes⟩ := Entry.areNamed_cons.1 hes
      obtain ⟨folders, hfolders, hsub, hinner, hmem⟩ := foldersBelow_spec es hes
      by_cases hfits : FitsAny excluded name
      · refine ⟨folders, ?_, hsub.cons name, hinner, fun k names => ?_⟩
        · rw [foldersBelow, NameFilter.excludes_ofTexts, decide_eq_true hfits, hfolders]
        · rw [hmem]
          constructor
          · rintro ⟨below, hbelow, hk⟩
            exact ⟨below, List.mem_cons_of_mem _ hbelow, hk⟩
          · rintro ⟨below, hbelow, hk, hwants⟩
            rcases List.mem_cons.1 hbelow with heq | hbelow
            · exact absurd ((Prod.mk.inj heq).1 ▸ hfits) hk
            · exact ⟨below, hbelow, hk, hwants⟩
      · obtain ⟨found, hfound, hsorted, hwanted⟩ := filesBelow_spec (.folder inner) hnamed
        refine ⟨(name, found) :: folders, ?_, hsub.cons_cons name,
          List.forall_mem_cons.2 ⟨hsorted, hinner⟩, fun k names => ?_⟩
        · rw [foldersBelow, NameFilter.excludes_ofTexts, decide_eq_false hfits]
          simp only [hfound, hfolders]
        · constructor
          · rintro ⟨below, hbelow, hnames⟩
            rcases List.mem_cons.1 hbelow with heq | hbelow
            · obtain ⟨rfl, rfl⟩ := Prod.mk.inj heq
              exact ⟨inner, List.mem_cons_self, hfits, (hwanted names).1 hnames⟩
            · obtain ⟨more, hmore, hk⟩ := (hmem k names).1 ⟨below, hbelow, hnames⟩
              exact ⟨more, List.mem_cons_of_mem _ hmore, hk⟩
          · rintro ⟨more, hmore, hk, hwants⟩
            rcases List.mem_cons.1 hmore with heq | hmore
            · obtain ⟨rfl, hinner⟩ := Prod.mk.inj heq
              obtain rfl := Entry.folder.inj hinner
              exact ⟨found, List.mem_cons_self, (hwanted names).2 hwants⟩
            · obtain ⟨below, hbelow, hnames⟩ := (hmem k names).2 ⟨more, hmore, hk, hwants⟩
              exact ⟨below, List.mem_cons_of_mem _ hbelow, hnames⟩

end

-- =============================================================== one path

/-- The settings compare names with texts. -/
structure Settings.Names (settings : Settings) (extensions excluded : List Text) :
    Prop where
  extensions : settings.processing.extensions = some (.list (extensions.map .text))
  excluded : settings.processing.excludedPatterns = some (.list (excluded.map .text))

theorem NameFilter.ofSettings_eq (h : settings.Names extensions excluded) :
    NameFilter.ofSettings settings = .ok (.ofTexts extensions excluded) := by
  rw [ofSettings, h.extensions, h.excluded]
  rfl

/-- The files that a spelled path stands for, in order: the one it leads
to, or those wanted below the folder it leads to. -/
inductive Store.Discovers (store : Store) (extensions excluded : List Text) (raw : String) :
    List Found → Prop
  | file {l : Location} {b : Bytes} (h : store.locate (Path.ofString raw).toString = .ok l)
      (hb : store.at? l = some (.file b)) :
      Discovers store extensions excluded raw [⟨(Path.ofString raw).toString, l⟩]
  | folder {l : Location} {es : List (String × Entry)} {below : List Location}
      (h : store.locate (Path.ofString raw).toString = .ok l)
      (hes : store.at? l = some (.folder es))
      (hbelow : ∀ names, names ∈ below
        ↔ (Entry.folder es).Wants extensions excluded names)
      (hsorted : below.Pairwise ReadBefore) :
      Discovers store extensions excluded raw
        (below.map fun names => ⟨((Path.ofString raw).within names).toString, l ++ names⟩)

/-- The places of the files that a spelled path stands for. -/
inductive Store.Covers (store : Store) (extensions excluded : List Text) (raw : String) :
    Location → Prop
  | file {l : Location} {b : Bytes} (h : store.locate (Path.ofString raw).toString = .ok l)
      (hb : store.at? l = some (.file b)) : Covers store extensions excluded raw l
  | below {l : Location} {es : List (String × Entry)} {names : List String}
      (h : store.locate (Path.ofString raw).toString = .ok l)
      (hes : store.at? l = some (.folder es))
      (hnames : (Entry.folder es).Wants extensions excluded names) :
      Covers store extensions excluded raw (l ++ names)

theorem Store.Discovers.mem_iff {found : List Found} {l : Location}
    (h : store.Discovers extensions excluded raw found) :
    l ∈ found.map (·.location) ↔ store.Covers extensions excluded raw l := by
  cases h with
  | @file at' b h hb =>
      rw [List.map_singleton, List.mem_singleton]
      constructor
      · rintro rfl
        exact .file h hb
      · rintro (⟨h', hb'⟩ | ⟨h', hes', hnames⟩)
        · exact Except.ok.inj (h'.symm.trans h)
        · obtain rfl := Except.ok.inj (h.symm.trans h')
          cases hb.symm.trans hes'
  | @folder at' es below h hes hbelow hsorted =>
      rw [List.map_map, List.mem_map]
      constructor
      · rintro ⟨names, hnames, rfl⟩
        exact .below h hes ((hbelow names).1 hnames)
      · rintro (⟨h', hb'⟩ | ⟨h', hes', hnames⟩)
        · obtain rfl := Except.ok.inj (h.symm.trans h')
          cases hes.symm.trans hb'
        · obtain rfl := Except.ok.inj (h.symm.trans h')
          obtain rfl := Entry.folder.inj (Option.some.inj (hes.symm.trans hes'))
          exact ⟨_, (hbelow _).2 hnames, rfl⟩

/-- A path that leads somewhere stands for files. -/
theorem candidates_spec (hstore : store.IsNamed) (h : store.Leads raw) :
    ∃ found, candidates store (.ofTexts extensions excluded) raw = .ok found
      ∧ store.Discovers extensions excluded raw found := by
  obtain ⟨l, e, hl, he⟩ := h
  cases e with
  | file b =>
      refine ⟨[⟨(Path.ofString raw).toString, l⟩], ?_, .file hl he⟩
      unfold candidates
      simp only [hl, he]
  | folder es =>
      have hnamed : (Entry.folder es).isNamed = true :=
        Entry.isNamed_of_at? (e := .folder store.entries) hstore he
      obtain ⟨below, hbelow, hsorted, hmem⟩ := filesBelow_spec (.folder es) hnamed
      refine ⟨below.map fun names => ⟨((Path.ofString raw).within names).toString, l ++ names⟩,
        ?_, .folder hl he hmem hsorted⟩
      unfold candidates
      simp only [hl, he, hbelow]
      rfl

/-- A path that leads nowhere is a fault that names it. -/
theorem candidates_of_not_leads {f : NameFilter} (h : ¬ store.Leads raw) :
    candidates store f raw = .error (.noSuchPath raw) := by
  unfold candidates
  cases hl : store.locate (Path.ofString raw).toString with
  | error _ => simp only [hl]
  | ok l =>
      cases he : store.at? l with
      | none => simp only [hl, he]
      | some e => exact absurd ⟨l, e, hl, he⟩ h

-- ============================================================= many paths

/-- Files are added where they have not been found before. -/
theorem addFound_eq (known more : List Found) :
    addFound known more
      = known ++ (more.filter fun c => !known.any (·.location == c.location)).eraseDupsBy
          fun c d => c.location == d.location := by
  induction more generalizing known with
  | nil => exact (List.append_nil known).symm
  | cons d more ih =>
      rw [addFound, List.foldl_cons, ← addFound, ih]
      by_cases hd : known.any (·.location == d.location) = true
      · rw [if_pos hd, List.filter_cons_of_neg (by simp [hd])]
      · rw [if_neg hd, List.filter_cons_of_pos (by simp [hd]), List.eraseDupsBy_cons,
          List.append_assoc, List.singleton_append, List.filter_filter]
        refine congrArg (fun l => known ++ d :: List.eraseDupsBy _ l) ?_
        refine List.filter_congr fun c _ => ?_
        rw [List.any_append, Bool.not_or, Bool.and_comm, List.any_cons, List.any_nil,
          Bool.or_false]
        refine congrArg (· && !known.any _) ?_
        by_cases hc : c.location = d.location
        · simp [hc]
        · simp [hc, Ne.symm hc]

theorem mem_addFound {known more : List Found} {l : Location} :
    l ∈ (addFound known more).map (·.location)
      ↔ l ∈ known.map (·.location) ∨ l ∈ more.map (·.location) := by
  induction more generalizing known with
  | nil => simp [addFound]
  | cons d more ih =>
      rw [addFound, List.foldl_cons, ← addFound, ih, List.map_cons, List.mem_cons]
      split
      · next hany =>
          obtain ⟨c, hc, hcd⟩ := List.any_eq_true.1 hany
          have hd : d.location ∈ known.map (·.location) :=
            List.mem_map.2 ⟨c, hc, beq_iff_eq.1 hcd⟩
          refine ⟨Or.imp_right Or.inr, ?_⟩
          rintro (hl | rfl | hl)
          · exact Or.inl hl
          · exact Or.inl hd
          · exact Or.inr hl
      · rw [List.map_append, List.mem_append, List.map_singleton, List.mem_singleton, or_assoc]

/-- The files of several paths, each path with its own. -/
theorem foldlM_candidates (hstore : store.IsNamed) (h : ∀ raw ∈ paths, store.Leads raw)
    (known : List Found) :
    ∃ lists, List.Forall₂ (store.Discovers extensions excluded) paths lists
      ∧ paths.foldlM (fun known raw =>
          (candidates store (.ofTexts extensions excluded) raw).map (addFound known)) known
        = .ok (addFound known lists.flatten) := by
  induction paths generalizing known with
  | nil => exact ⟨[], .nil, rfl⟩
  | cons raw paths ih =>
      obtain ⟨hraw, hrest⟩ := List.forall_mem_cons.1 h
      obtain ⟨found, hfound, hdiscovers⟩ := candidates_spec hstore hraw
      obtain ⟨lists, hlists, hfold⟩ := ih hrest (addFound known found)
      refine ⟨found :: lists, .cons hdiscovers hlists, ?_⟩
      rw [List.foldlM_cons, hfound]
      refine hfold.trans (congrArg Except.ok ?_)
      rw [List.flatten_cons, addFound, addFound, ← List.foldl_append, addFound]

/-- What the lists hold is what the paths cover. -/
theorem mem_flatten_of_discovers {lists : List (List Found)} {l : Location}
    (h : List.Forall₂ (store.Discovers extensions excluded) paths lists) :
    l ∈ lists.flatten.map (·.location)
      ↔ ∃ raw ∈ paths, store.Covers extensions excluded raw l := by
  induction h with
  | nil => simp
  | @cons raw found paths lists hdiscovers _ ih =>
      rw [List.flatten_cons, List.map_append, List.mem_append, hdiscovers.mem_iff, ih,
        List.exists_mem_cons_iff]

theorem foldlM_candidates_error (hstore : store.IsNamed) {before after : List String}
    (h : ∀ p ∈ before, store.Leads p) (hraw : ¬ store.Leads raw) :
    (before ++ raw :: after).foldlM (fun known raw =>
        (candidates store (.ofTexts extensions excluded) raw).map (addFound known)) []
      = .error (.noSuchPath raw) := by
  obtain ⟨lists, -, hfold⟩ := foldlM_candidates hstore h []
  rw [List.foldlM_append, hfold]
  show List.foldlM _ _ _ = _
  rw [List.foldlM_cons, candidates_of_not_leads hraw]
  rfl

/-- Either all paths lead somewhere, or there is a first one that does not. -/
theorem leads_or_first (store : Store) (paths : List String) :
    (∀ raw ∈ paths, store.Leads raw)
      ∨ ∃ before raw after, paths = before ++ raw :: after
        ∧ (∀ p ∈ before, store.Leads p) ∧ ¬ store.Leads raw := by
  induction paths with
  | nil => exact Or.inl fun raw h => absurd h List.not_mem_nil
  | cons raw paths ih =>
      by_cases hraw : store.Leads raw
      · rcases ih with hall | ⟨before, first, after, rfl, hbefore, hfirst⟩
        · exact Or.inl (List.forall_mem_cons.2 ⟨hraw, hall⟩)
        · exact Or.inr ⟨raw :: before, first, after, rfl,
            List.forall_mem_cons.2 ⟨hraw, hbefore⟩, hfirst⟩
      · exact Or.inr ⟨[], raw, paths, rfl, fun p h => absurd h List.not_mem_nil, hraw⟩

/-- The files that are found are those that the paths stand for, path by
path and in the order of the names, each where it comes up first; that is
every file a path leads to and every wanted file below a folder. A path
that leads nowhere is the only fault, and the first of them is reported. -/
theorem findFiles_exact (hstore : store.IsNamed) (hs : settings.Names extensions excluded)
    (paths : List String) :
    ((∀ raw ∈ paths, store.Leads raw) → ∃ found lists,
      findFiles store settings paths = .ok found
        ∧ List.Forall₂ (store.Discovers extensions excluded) paths lists
        ∧ found = lists.flatten.eraseDupsBy (fun c d => c.location == d.location)
        ∧ (found.map (·.location)).Nodup
        ∧ ∀ l, l ∈ found.map (·.location)
          ↔ ∃ raw ∈ paths, store.Covers extensions excluded raw l)
    ∧ ∀ e, findFiles store settings paths = .error e
      ↔ ∃ before raw after, paths = before ++ raw :: after
        ∧ (∀ p ∈ before, store.Leads p) ∧ ¬ store.Leads raw ∧ e = .noSuchPath raw := by
  have hfind : findFiles store settings paths
      = paths.foldlM (fun known raw =>
          (candidates store (.ofTexts extensions excluded) raw).map (addFound known)) [] := by
    rw [findFiles, NameFilter.ofSettings_eq hs]
  rw [hfind]
  refine ⟨fun hleads => ?_, fun e => ⟨fun h => ?_, ?_⟩⟩
  · obtain ⟨lists, hlists, hfold⟩ := foldlM_candidates hstore hleads []
    refine ⟨_, lists, hfold, hlists, ?_, (addFound_of_nodup [] _ List.nodup_nil).1, ?_⟩
    · exact (addFound_eq [] _).trans
        (congrArg (List.eraseDupsBy _) (List.filter_eq_self.2 fun c _ => rfl))
    · intro l
      rw [mem_addFound, or_iff_right (by simp)]
      exact mem_flatten_of_discovers hlists
  · rcases leads_or_first store paths with hall | ⟨before, raw, after, rfl, hbefore, hraw⟩
    · obtain ⟨lists, -, hfold⟩ := foldlM_candidates hstore hall []
      cases hfold.symm.trans h
    · exact ⟨before, raw, after, rfl, hbefore, hraw,
        Except.error.inj (h.symm.trans (foldlM_candidates_error hstore hbefore hraw))⟩
  · rintro ⟨before, raw, after, rfl, hbefore, hraw, rfl⟩
    exact foldlM_candidates_error hstore hbefore hraw

/-- A file that is passed over in its folder, a folder below it, and
another that is left out. -/
def layout : Store :=
  ⟨[("d", .folder [("b.txt", .file []), ("c.js", .file []),
      ("deep", .folder [("a.mjs", .file [])])]),
    ("node_modules", .folder [("index.js", .file [])])]⟩

theorem findFiles_exact_layout :
    layout.IsNamed
    ∧ Settings.Names {} ([".js", ".mjs", ".cjs", ".jsx"].map Text.ofString)
      (["node_modules", ".git", "*.min.js", "dist", "build", "vendor"].map Text.ofString)
    ∧ (∃ found, findFiles layout {} ["d/b.txt", "d", "d"] = .ok found
      ∧ (found.map (·.location)).Nodup
      ∧ ["d", "b.txt"] ∈ found.map (·.location)
      ∧ ["d", "deep", "a.mjs"] ∈ found.map (·.location))
    ∧ findFiles layout {} ["d", "gone", "lost"] = .error (.noSuchPath "gone") := by
  have hstore : layout.IsNamed := by decide
  have hs : Settings.Names {} ([".js", ".mjs", ".cjs", ".jsx"].map Text.ofString)
      (["node_modules", ".git", "*.min.js", "dist", "build", "vendor"].map Text.ofString) :=
    ⟨rfl, rfl⟩
  have hfile : layout.locate (Path.ofString "d/b.txt").toString
      = .ok ["d", "b.txt"] := by cbv
  have hfolder : layout.locate (Path.ofString "d").toString = .ok ["d"] := by cbv
  have hgone : layout.locate (Path.ofString "gone").toString = .error .missing := by cbv
  refine ⟨hstore, hs, ?_, ?_⟩
  · have hleads : ∀ raw ∈ ["d/b.txt", "d", "d"], layout.Leads raw := by
      refine List.forall_mem_cons.2 ⟨⟨_, _, hfile, rfl⟩, ?_⟩
      exact List.forall_mem_cons.2
        ⟨⟨_, _, hfolder, rfl⟩, List.forall_mem_singleton.2 ⟨_, _, hfolder, rfl⟩⟩
    obtain ⟨found, -, hfound, -, -, hnodup, hmem⟩ := (findFiles_exact hstore hs _).1 hleads
    refine ⟨found, hfound, hnodup, (hmem _).2 ?_, (hmem _).2 ?_⟩
    · exact ⟨_, List.mem_cons_self, .file hfile rfl⟩
    · refine ⟨"d", List.mem_cons_of_mem _ List.mem_cons_self, ?_⟩
      show layout.Covers _ _ "d" (["d"] ++ ["deep", "a.mjs"])
      exact .below hfolder rfl ⟨⟨[], rfl⟩, ⟨"a.mjs", rfl, by decide⟩, by decide⟩
  · refine ((findFiles_exact hstore hs _).2 _).2 ⟨["d"], "gone", ["lost"], rfl, ?_, ?_, rfl⟩
    · exact List.forall_mem_singleton.2 ⟨_, _, hfolder, rfl⟩
    · rintro ⟨l, e, hl, -⟩
      cases hgone.symm.trans hl

end Codemod
