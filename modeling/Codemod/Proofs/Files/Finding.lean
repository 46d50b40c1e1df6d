/-
What is found.

Which files are found depends on the outline of a store
(`findFiles_eq_of_outline_eq`): what is in the files is not looked at. In
a store with proper names each of them is called by a path that leads to
where it is, and none is found twice, so neither two of the places nor
two of the paths are the same (`Found.IsProper`).

Main statement: `isProper_of_findFiles`.
-/
import Mathlib.Data.List.Nodup
import Codemod.Files.Discovery
import Codemod.Proofs.Files.Content

namespace Codemod

variable {f : NameFilter} {es : List (String × Entry)} {store other : Store}
  {settings : Settings} {paths : List String} {raw : String} {found : List Found}

-- ============================================================== outlines

theorem fileNames_outlines : fileNames (Entry.outlines es) = fileNames es := by
  induction es with
  | nil => rfl
  | cons p es ih =>
      obtain ⟨name, e⟩ := p
      cases e with
      | file b =>
          rw [Entry.outlines, fileNames, List.filterMap_cons]
          exact congrArg (name :: ·) ih
      | folder inner => exact ih

mutual

theorem filesBelow_outline (e : Entry) : filesBelow f e.outline = filesBelow f e :=
  match e with
  | .file _ => by rw [Entry.outline, filesBelow, filesBelow]
  | .folder es => by
      rw [Entry.outline, filesBelow, filesBelow, fileNames_outlines,
        foldersBelow_outlines es]

theorem foldersBelow_outlines (es : List (String × Entry)) :
    foldersBelow f (Entry.outlines es) = foldersBelow f es :=
  match es with
  | [] => by rw [Entry.outlines]
  | (name, .file _) :: es => by
      rw [Entry.outlines, Entry.outline, foldersBelow, foldersBelow,
        foldersBelow_outlines es]
  | (name, .folder inner) :: es => by
      have hinner := filesBelow_outline (.folder inner)
      rw [Entry.outline] at hinner
      rw [Entry.outlines, Entry.outline, foldersBelow, foldersBelow, hinner,
        foldersBelow_outlines es]

end

theorem candidates_outline :
    candidates store.outline f raw = candidates store f raw := by
  unfold candidates
  simp only [Store.locate_outline]
  cases store.locate (Path.ofString raw).toString with
  | error _ => rfl
  | ok l =>
      simp only [Store.at?_outline]
      cases store.at? l with
      | none => rfl
      | some e =>
          cases e with
          | file b => rfl
          | folder es =>
              have hes := filesBelow_outline (f := f) (.folder es)
              rw [Entry.outline] at hes
              simp only [Option.map_some, Entry.outline, hes]

/-- Which files are found does not depend on what is in files. -/
theorem findFiles_eq_of_outline_eq (h : store.outline = other.outline) :
    findFiles store settings paths = findFiles other settings paths := by
  have hcandidates : ∀ f, candidates store f = candidates other f := by
    intro f
    funext raw
    rw [← candidates_outline, h, candidates_outline]
  unfold findFiles
  simp only [hcandidates]

-- ========================================================== below a folder

/-- Names that lead from an entry to a file. -/
def Entry.LeadsToFile (e : Entry) (names : List String) : Prop :=
  names ≠ [] ∧ (∀ n ∈ names, Path.isName n = true) ∧ ∃ b, e.at? names = some (.file b)

theorem mem_of_mem_filterM {α : Type} {p : α → Except Fault Bool} {xs ys : List α}
    {x : α} (h : xs.filterM p = .ok ys) (hx : x ∈ ys) : x ∈ xs := by
  have hkept : ∀ (xs acc kept : List α), xs.filterAuxM p acc = .ok kept → x ∈ kept →
      x ∈ xs ∨ x ∈ acc := by
    intro xs
    induction xs with
    | nil =>
        intro acc kept h hx
        obtain rfl := pure_eq_ok.1 h
        exact Or.inr hx
    | cons y xs ih =>
        intro acc kept h hx
        obtain ⟨b, -, h⟩ := bind_eq_ok.1 h
        rcases ih _ _ h hx with hx | hx
        · exact Or.inl (List.mem_cons_of_mem y hx)
        · cases b with
          | false => exact Or.inr hx
          | true =>
              rcases List.mem_cons.1 hx with rfl | hx
              · exact Or.inl List.mem_cons_self
              · exact Or.inr hx
  obtain ⟨kept, hk, h⟩ := bind_eq_ok.1 h
  obtain rfl := pure_eq_ok.1 h
  rcases hkept xs [] kept hk (List.mem_reverse.1 hx) with hx | hx
  · exact hx
  · cases hx

theorem file_of_mem_fileNames {name : String} (h : name ∈ fileNames es) :
    ∃ b, (name, Entry.file b) ∈ es := by
  obtain ⟨⟨n, e⟩, he, hn⟩ := List.mem_filterMap.1 h
  cases e with
  | file b =>
      obtain rfl := Option.some.inj hn
      exact ⟨b, he⟩
  | folder inner => cases hn

theorem leadsToFile_of_mem {name : String} {b : Bytes} (hes : Entry.areNamed es = true)
    (h : (name, Entry.file b) ∈ es) : (Entry.folder es).LeadsToFile [name] := by
  obtain ⟨hlookup, hname, -⟩ := Entry.lookup_of_mem hes h
  refine ⟨List.cons_ne_nil _ _, by simpa using hname, b, ?_⟩
  rw [Entry.at?_cons_of_lookup hlookup]
  exact Entry.at?.eq_def _ []

theorem Entry.LeadsToFile.cons {name : String} {inner : List (String × Entry)}
    {names : List String} (hes : Entry.areNamed es = true)
    (h : (name, Entry.folder inner) ∈ es)
    (hnames : (Entry.folder inner).LeadsToFile names) :
    (Entry.folder es).LeadsToFile (name :: names) := by
  obtain ⟨hlookup, hname, -⟩ := Entry.lookup_of_mem hes h
  obtain ⟨-, hvalid, b, hb⟩ := hnames
  refine ⟨List.cons_ne_nil _ _, ?_, b, ?_⟩
  · rintro n (_ | ⟨_, hn⟩)
    · exact hname
    · exact hvalid n hn
  · rw [Entry.at?_cons_of_lookup hlookup]
    exact hb

mutual

theorem leadsToFile_of_filesBelow {locations : List Location} (e : Entry)
    (he : e.isNamed = true) (h : filesBelow f e = .ok locations) :
    ∀ names ∈ locations, e.LeadsToFile names :=
  match e with
  | .file b => by
      rw [filesBelow] at h
      obtain rfl := Except.ok.inj h
      exact fun names hn => absurd hn List.not_mem_nil
  | .folder es => by
      rw [Entry.isNamed] at he
      rw [filesBelow] at h
      split at h
      · next names folders hnames hfolders =>
          obtain rfl := Except.ok.inj h
          intro names' hn
          rcases List.mem_append.1 hn with hn | hn
          · obtain ⟨name, hname, rfl⟩ := List.mem_map.1 hn
            have hmem := mem_of_mem_filterM hnames
              ((List.mergeSort_perm names _).mem_iff.1 hname)
            obtain ⟨b, hb⟩ := file_of_mem_fileNames hmem
            exact leadsToFile_of_mem he hb
          · obtain ⟨⟨name, below⟩, hp, hn⟩ := List.mem_flatMap.1 hn
            obtain ⟨rest, hrest, rfl⟩ := List.mem_map.1 hn
            obtain ⟨inner, hinner, hleads⟩ := leadsToFile_of_foldersBelow es he hfolders _
              ((List.mergeSort_perm folders _).mem_iff.1 hp)
            exact Entry.LeadsToFile.cons he hinner (hleads rest hrest)
      · cases h
      · cases h

theorem leadsToFile_of_foldersBelow {folders : List (String × List Location)}
    (es : List (String × Entry)) (hes : Entry.areNamed es = true)
    (h : foldersBelow f es = .ok folders) :
    ∀ p ∈ folders, ∃ inner, (p.1, Entry.folder inner) ∈ es
      ∧ ∀ names ∈ p.2, (Entry.folder inner).LeadsToFile names :=
  match es with
  | [] => by
      rw [foldersBelow] at h
      obtain rfl := Except.ok.inj h
      exact fun p hp => absurd hp List.not_mem_nil
  | (name, .file b) :: es => by
      rw [foldersBelow] at h
      obtain ⟨-, -, -, hes⟩ := Entry.areNamed_cons.1 hes
      intro p hp
      obtain ⟨inner, hinner, hleads⟩ := leadsToFile_of_foldersBelow es hes h p hp
      exact ⟨inner, List.mem_cons_of_mem _ hinner, hleads⟩
  | (name, .folder inner) :: es => by
      obtain ⟨-, -, hinner, hes⟩ := Entry.areNamed_cons.1 hes
      rw [foldersBelow] at h
      intro p hp
      have hlater : ∀ {more}, foldersBelow f es = .ok more → p ∈ more →
          ∃ inner', (p.1, Entry.folder inner') ∈ (name, .folder inner) :: es
            ∧ ∀ names ∈ p.2, (Entry.folder inner').LeadsToFile names := by
        intro more hmore hp
        obtain ⟨inner', hinner', hleads⟩ :=
          leadsToFile_of_foldersBelow es hes hmore p hp
        exact ⟨inner', List.mem_cons_of_mem _ hinner', hleads⟩
      split at h
      · cases h
      · exact hlater h hp
      · split at h
        · next below more hbelow hmore =>
            obtain rfl := Except.ok.inj h
            rcases List.mem_cons.1 hp with rfl | hp
            · exact ⟨inner, List.mem_cons_self,
                leadsToFile_of_filesBelow (.folder inner) hinner hbelow⟩
            · exact hlater hmore hp
        · cases h
        · cases h

end

-- ================================================================ in paths

/-- A spelled path leads to something. -/
def Store.Leads (store : Store) (raw : String) : Prop :=
  ∃ l e, store.locate (Path.ofString raw).toString = .ok l ∧ store.at? l = some e

/-- A file has been found where it is. -/
def Found.IsProper (store : Store) (c : Found) : Prop :=
  store.locate c.path = .ok c.location ∧ ∃ b, store.at? c.location = some (.file b)

theorem Path.names_ofString {n : String} (h : n ∈ (Path.ofString raw).names) :
    n ≠ "" ∧ '/' ∉ n.toList := by
  obtain ⟨hmem, hn⟩ := List.mem_filter.1 h
  rw [Bool.and_eq_true, bne_iff_ne] at hn
  exact ⟨hn.1, not_mem_of_mem_split hmem⟩

theorem Path.root_ofString (raw : String) :
    (Path.ofString raw).root = "" ∨ ∃ t, (Path.ofString raw).root = "/" ++ t := by
  rw [ofString]
  simp only
  unfold rootOf
  split
  · exact Or.inr ⟨"", by simp⟩
  · exact Or.inr ⟨"/", rfl⟩
  · exact Or.inr ⟨"", by simp⟩
  · exact Or.inl rfl

/-- A path that leads somewhere starts in the working folder, and leads
where its names lead. -/
theorem follow_of_locate {l : Location}
    (h : store.locate (Path.ofString raw).toString = .ok l) :
    (Path.ofString raw).root = "" ∧ store.follow [] (Path.ofString raw).names = .ok l := by
  rcases Path.root_ofString raw with hroot | ⟨t, hroot⟩
  · refine ⟨hroot, ?_⟩
    rw [Path.toString, hroot, String.empty_append] at h
    cases hnames : (Path.ofString raw).names with
    | nil =>
        rw [hnames] at h
        have hdot : store.locate "." = .ok [] := by
          have hspelled : (".".isEmpty || ".".startsWith "/") = false := by
            decide +kernel
          have hsplit : Path.split "." = ["."] := by decide
          rw [Store.locate, hspelled, hsplit]
          rfl
        obtain rfl := Except.ok.inj (hdot.symm.trans h)
        rfl
    | cons n ns =>
        have hvalid : ∀ m ∈ n :: ns, m ≠ "" ∧ '/' ∉ m.toList :=
          fun m hm => Path.names_ofString (hnames ▸ hm)
        rw [hnames, List.isEmpty_cons, Bool.and_false, if_neg Bool.false_ne_true,
          Store.locate_intercalate (List.cons_ne_nil n ns) hvalid] at h
        exact h
  · exfalso
    rw [Store.locate, Path.toString, hroot] at h
    have hstart : (("/" ++ t).isEmpty) = false := by
      rw [← Bool.not_eq_true, String.isEmpty_iff, ← String.toList_inj]
      simp
    rw [hstart, Bool.false_and, if_neg Bool.false_ne_true, if_pos] at h
    · cases h
    · rw [Bool.or_eq_true, String.startsWith_string_iff]
      exact Or.inr ⟨_, by rw [String.append_assoc, String.toList_append]⟩

theorem isProper_of_candidates (hstore : store.IsNamed)
    (h : candidates store f raw = .ok found) :
    ∀ c ∈ found, c.IsProper store := by
  unfold candidates at h
  simp only at h
  split at h
  · cases h
  · next l hl =>
      split at h
      · cases h
      · next b hb =>
          obtain rfl := Except.ok.inj h
          intro c hc
          obtain rfl := List.mem_singleton.1 hc
          exact ⟨hl, b, hb⟩
      · next es hes =>
          obtain ⟨hroot, hfollow⟩ := follow_of_locate hl
          have hnamed : (Entry.folder es).isNamed = true :=
            Entry.isNamed_of_at? (e := .folder store.entries) hstore hes
          cases hbelow : filesBelow f (.folder es) with
          | error e =>
              rw [hbelow] at h
              cases h
          | ok locations =>
              rw [hbelow] at h
              obtain rfl := Except.ok.inj h
              intro c hc
              obtain ⟨names, hnames, rfl⟩ := List.mem_map.1 hc
              obtain ⟨hne, hvalid, b, hb⟩ :=
                leadsToFile_of_filesBelow _ hnamed hbelow names hnames
              have hat : store.at? (l ++ names) = some (.file b) := by
                rw [Store.at?_append, hes]
                exact hb
              refine ⟨?_, b, hat⟩
              have hspelled : ((Path.ofString raw).within names).toString
                  = "/".intercalate ((Path.ofString raw).names ++ names) := by
                have hsome : (Path.ofString raw).names ++ names ≠ [] := by simp [hne]
                rw [Path.toString, Path.within]
                simp only [hroot]
                rw [List.isEmpty_eq_false_iff.2 hsome, Bool.and_false,
                  if_neg Bool.false_ne_true, String.empty_append]
              rw [hspelled, Store.locate_intercalate (by simp [hne]), Store.follow_append,
                hfollow]
              · exact Store.follow_of_at? hvalid hat
              · intro n hn
                rcases List.mem_append.1 hn with hn | hn
                · exact Path.names_ofString hn
                · obtain ⟨hempty, -, -, hslash⟩ := Path.isName_iff.1 (hvalid n hn)
                  exact ⟨hempty, hslash⟩

theorem addFound_of_nodup (known more : List Found)
    (hknown : (known.map (·.location)).Nodup) :
    ((addFound known more).map (·.location)).Nodup
      ∧ ∀ c ∈ addFound known more, c ∈ known ∨ c ∈ more := by
  induction more generalizing known with
  | nil => exact ⟨hknown, fun c hc => Or.inl hc⟩
  | cons d more ih =>
      rw [addFound, List.foldl_cons, ← addFound]
      split
      · obtain ⟨hnodup, hmem⟩ := ih known hknown
        refine ⟨hnodup, fun c hc => ?_⟩
        rcases hmem c hc with hc | hc
        · exact Or.inl hc
        · exact Or.inr (List.mem_cons_of_mem d hc)
      · next hnew =>
          have hnodup : ((known ++ [d]).map (·.location)).Nodup := by
            rw [List.map_append, List.nodup_append]
            refine ⟨hknown, List.nodup_singleton _, ?_⟩
            rintro l hl m hm rfl
            obtain ⟨c, hc, hcl⟩ := List.mem_map.1 hl
            have hd := List.mem_singleton.1 hm
            refine hnew (List.any_eq_true.2 ⟨c, hc, ?_⟩)
            rw [beq_iff_eq, hcl, hd]
          obtain ⟨hnodup, hmem⟩ := ih _ hnodup
          refine ⟨hnodup, fun c hc => ?_⟩
          rcases hmem c hc with hc | hc
          · rcases List.mem_append.1 hc with hc | hc
            · exact Or.inl hc
            · exact Or.inr (List.mem_singleton.1 hc ▸ List.mem_cons_self)
          · exact Or.inr (List.mem_cons_of_mem d hc)

theorem isProper_of_foldlM (hstore : store.IsNamed) {known : List Found}
    (hproper : ∀ c ∈ known, Found.IsProper store c)
    (hnodup : (known.map (·.location)).Nodup)
    (h : paths.foldlM (fun known raw => (candidates store f raw).map (addFound known))
      known = .ok found) :
    (∀ c ∈ found, c.IsProper store) ∧ (found.map (·.location)).Nodup := by
  induction paths generalizing known with
  | nil =>
      obtain rfl := pure_eq_ok.1 h
      exact ⟨hproper, hnodup⟩
  | cons raw paths ih =>
      rw [List.foldlM_cons] at h
      obtain ⟨next, hnext, h⟩ := bind_eq_ok.1 h
      cases hmore : candidates store f raw with
      | error e =>
          rw [hmore] at hnext
          cases hnext
      | ok more =>
          rw [hmore] at hnext
          obtain rfl := Except.ok.inj hnext
          obtain ⟨hnodup', hmem⟩ := addFound_of_nodup known more hnodup
          refine ih (fun c hc => ?_) hnodup' h
          rcases hmem c hc with hc | hc
          · exact hproper c hc
          · exact isProper_of_candidates hstore hmore c hc

/-- Every file that is found is called by a path that leads to it, and none
is found twice. -/
theorem isProper_of_findFiles (hstore : store.IsNamed)
    (h : findFiles store settings paths = .ok found) :
    (∀ c ∈ found, c.IsProper store) ∧ (found.map (·.location)).Nodup := by
  unfold findFiles at h
  split at h
  · cases h
  · have hnone : ∀ c ∈ ([] : List Found), c.IsProper store :=
      fun c hc => absurd hc List.not_mem_nil
    exact isProper_of_foldlM hstore hnone List.nodup_nil h

/-- The files that are found are called by different paths. -/
theorem nodup_paths_of_findFiles (hstore : store.IsNamed)
    (h : findFiles store settings paths = .ok found) :
    (found.map (·.path)).Nodup := by
  obtain ⟨hproper, hnodup⟩ := isProper_of_findFiles hstore h
  refine List.Nodup.map_on (fun c hc d hd hcd => ?_) (hnodup.of_map _)
  refine List.inj_on_of_nodup_map hnodup hc hd ?_
  have hl := (hproper c hc).1
  rw [hcd, (hproper d hd).1] at hl
  exact (Except.ok.inj hl).symm

end Codemod
