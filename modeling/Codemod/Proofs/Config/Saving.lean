/-
Saving and loading.

What is read back is the same document, entry by entry (`Value.same`), so
it passes the check that the saved one passes (`Config.Passes.same`) and
has the same settings (`Config.Sheet.exists_same`). The reader goes by the
end of the path and the writer by the format it is told: where it writes
YAML to a path that is read as JSON, nothing can be read
(`Config.loads_back_iff`).
-/
import Mathlib
import Codemod.Config.Source
import Codemod.Proofs.Config.Layer
import Codemod.Proofs.Files.Writing
import Codemod.Proofs.Text.Utf8

namespace Codemod

namespace Value

variable {v w : Value} {vs ws : List Value} {es fs : List (String × Value)}
  {k key : String}

-- ======================================================== the same value

theorem int?_of_same (h : same v w = true) : w.int? = v.int? := by
  cases v <;> cases w <;> simp_all [same, int?]

theorem isTruthy_of_same (h : same v w = true) (hv : v.isTruthy = true) :
    w.isTruthy = true := by
  cases v <;> cases w <;> simp_all [same, isTruthy]
  · next vs ws =>
      intro hnil
      have hlength := sameItems_length h
      rw [hnil] at hlength
      exact hv (List.eq_nil_of_length_eq_zero hlength)
  · next es fs =>
      intro hnil
      rw [hnil] at h
      exact hv (List.eq_nil_of_length_eq_zero h.1)

/-- Every item has its equal in the same place. -/
theorem all_of_sameItems {test : Value → Bool}
    (htest : ∀ v w, same v w = true → test v = true → test w = true)
    (h : sameItems vs ws = true) (hvs : vs.all test = true) : ws.all test = true := by
  induction vs generalizing ws with
  | nil =>
      cases ws with
      | nil => rfl
      | cons w ws => simp [sameItems] at h
  | cons v vs ih =>
      cases ws with
      | nil => rfl
      | cons w ws =>
          rw [sameItems, Bool.and_eq_true] at h
          rw [List.all_cons, Bool.and_eq_true] at hvs ⊢
          exact ⟨htest v w h.1 hvs.1, ih h.2 hvs.2⟩

theorem sameEntries_iff : sameEntries es fs = true
    ↔ ∀ e ∈ es, ∃ w, field? e.1 fs = some w ∧ same e.2 w = true := by
  induction es with
  | nil => simp [sameEntries]
  | cons e es ih =>
      obtain ⟨k, v⟩ := e
      rw [sameEntries, Bool.and_eq_true, ih, List.forall_mem_cons]
      refine and_congr_left fun _ => ?_
      cases field? k fs <;> simp

theorem same_map_iff : same (.map es) w = true
    ↔ ∃ fs, w = .map fs ∧ es.length = fs.length
      ∧ ∀ e ∈ es, ∃ u, field? e.1 fs = some u ∧ same e.2 u = true := by
  cases w with
  | map fs => simp [same, sameEntries_iff]
  | _ => simp [same]

/-- The same mapping has the same keys. -/
theorem keys_perm_of_same (hes : Distinct es) (h : same (.map es) (.map fs) = true) :
    (es.map Prod.fst).Perm (fs.map Prod.fst) := by
  obtain ⟨_, heq, hlength, hfields⟩ := same_map_iff.1 h
  obtain rfl := Value.map.inj heq
  have hsub : es.map Prod.fst ⊆ fs.map Prod.fst := by
    intro key hkey
    obtain ⟨e, he, rfl⟩ := List.mem_map.1 hkey
    obtain ⟨u, hu, -⟩ := hfields e he
    exact List.mem_map.2 ⟨_, mem_of_field? hu, rfl⟩
  exact (List.subperm_of_subset hes hsub).perm_of_length_le (by simp [hlength])

/-- What the same mapping has under a key is the same. -/
theorem exists_field?_of_same (hes : Distinct es) (h : same (.map es) (.map fs) = true)
    (hw : field? key fs = some w) : ∃ v, field? key es = some v ∧ same v w = true := by
  have hmem : key ∈ es.map Prod.fst :=
    (keys_perm_of_same hes h).mem_iff.2 (List.mem_map.2 ⟨_, mem_of_field? hw, rfl⟩)
  obtain ⟨⟨k, v⟩, he, rfl⟩ := List.mem_map.1 hmem
  obtain ⟨_, heq, -, hfields⟩ := same_map_iff.1 h
  obtain rfl := Value.map.inj heq
  obtain ⟨u, hu, hvu⟩ := hfields _ he
  obtain rfl := Option.some.inj (hu.symm.trans hw)
  exact ⟨v, Config.field?_of_mem hes he, hvu⟩

end Value

namespace Config

open Value

variable {v w : Value} {es fs : List (String × Value)} {s : Settings} {name key : String}

-- ========================================================= the same check

theorem isListOf_of_same {test : Value → Bool}
    (htest : ∀ v w, same v w = true → test v = true → test w = true)
    (h : same v w = true) (hv : isListOf test v = true) : isListOf test w = true := by
  cases v with
  | list vs =>
      cases w with
      | list ws =>
          rw [same] at h
          exact all_of_sameItems htest h hv
      | _ => simp [same] at h
  | _ => cases hv

theorem isNameIn_of_same {names : List String} (h : same v w = true)
    (hv : isNameIn names v = true) : isNameIn names w = true := by
  cases v with
  | text t => rwa [eq_text_of_same h]
  | _ => cases hv

theorem isWord_of_same (h : same v w = true) (hv : isWord v = true) : isWord w = true := by
  cases v with
  | text t => rwa [eq_text_of_same h]
  | _ => cases hv

theorem isExtension_of_same (h : same v w = true) (hv : isExtension v = true) :
    isExtension w = true := by
  cases v with
  | text t => rwa [eq_text_of_same h]
  | _ => cases hv

theorem isWordList_of_same (h : same v w = true) (hv : isWordList v = true) :
    isWordList w = true := by
  cases v with
  | null =>
      cases w with
      | null => rfl
      | _ => simp [same] at h
  | list vs =>
      have hlist := isListOf_of_same (fun _ _ => isWord_of_same) h hv
      cases w with
      | list ws => exact hlist
      | _ => simp [same] at h
  | _ => cases hv

theorem isPositive_of_same (h : same v w = true) (hv : isPositive v = true) :
    isPositive w = true := by
  rwa [isPositive, int?_of_same h]

/-- The entries of a configuration and of its sections have each their
own key. -/
structure IsDictionary (es : List (String × Value)) : Prop where
  distinct : Distinct es
  sections : HasDistinctSections es

theorem sectionEntries_same (hd : IsDictionary es) (hes : HasSections es)
    (hsame : same (.map es) (.map fs) = true) (hname : name ∈ sectionNames) :
    same (.map (sectionEntries es name)) (.map (sectionEntries fs name)) = true := by
  cases hf : field? name fs with
  | none =>
      have he : field? name es = none := by
        rw [field?_eq_none_iff] at hf ⊢
        rwa [(keys_perm_of_same hd.distinct hsame).mem_iff]
      rw [sectionEntries_of_none hf, sectionEntries_of_none he]
      rfl
  | some w =>
      obtain ⟨v, hv, hvw⟩ := exists_field?_of_same hd.distinct hsame hf
      obtain ⟨inner, rfl⟩ := hes name hname v hv
      obtain ⟨outer, rfl, -⟩ := same_map_iff.1 hvw
      rwa [sectionEntries_of_field? hf, sectionEntries_of_field? hv]

/-- What the same document sets is the same. -/
theorem exists_setting_of_same (hd : IsDictionary es) (hes : HasSections es)
    (hsame : same (.map es) (.map fs) = true) (hname : name ∈ sectionNames)
    (hw : field? key (sectionEntries fs name) = some w) :
    ∃ v, field? key (sectionEntries es name) = some v ∧ same v w = true :=
  exists_field?_of_same (hd.sections name hname) (sectionEntries_same hd hes hsame hname) hw

/-- The same document passes the same check. -/
theorem Passes.same (h : Passes es) (hd : IsDictionary es)
    (hsame : same (.map es) (.map fs) = true) : Passes fs := by
  have hsetting {name key : String} {test : Value → Bool} (hname : name ∈ sectionNames)
      (htest : ∀ v w, Value.same v w = true → test v = true → test w = true)
      (hes : ∀ v, field? key (sectionEntries es name) = some v → test v = true) :
      ∀ w, field? key (sectionEntries fs name) = some w → test w = true := by
    intro w hw
    obtain ⟨v, hv, hvw⟩ := exists_setting_of_same hd h.sections hsame hname hw
    exact htest v w hvw (hes v hv)
  exact {
    sections := fun name hname w hw => by
      obtain ⟨v, hv, hvw⟩ := exists_field?_of_same hd.distinct hsame hw
      obtain ⟨inner, rfl⟩ := h.sections name hname v hv
      exact (same_map_iff.1 hvw).imp fun _ h => h.1
    words := fun key hkey =>
      hsetting (by decide) (fun _ _ => isWordList_of_same) (h.words key hkey)
    factoryNames := hsetting (by decide) (fun _ _ => isTruthy_of_same) h.factoryNames
    groups := hsetting (by decide)
      (fun _ _ => isListOf_of_same fun _ _ => isNameIn_of_same) h.groups
    disabledRules := hsetting (by decide)
      (fun _ _ => isListOf_of_same fun _ _ _ _ => rfl) h.disabledRules
    maxPasses := hsetting (by decide) (fun _ _ => isPositive_of_same) h.maxPasses
    maxFileSize := hsetting (by decide) (fun _ _ => isPositive_of_same) h.maxFileSize
    jobs := hsetting (by decide) (fun _ _ => isPositive_of_same) h.jobs
    strategy := hsetting (by decide) (fun _ _ => isNameIn_of_same) h.strategy
    extensions := hsetting (by decide)
      (fun _ _ => isListOf_of_same fun _ _ => isExtension_of_same) h.extensions }

theorem isUnreserved_of_same (h : isUnreserved es = true) (hd : IsDictionary es)
    (hes : HasSections es) (hsame : same (.map es) (.map fs) = true) :
    isUnreserved fs = true := by
  refine isUnreserved_iff.2 fun name hname e he => ?_
  have hperm := keys_perm_of_same (hd.sections name hname)
    (sectionEntries_same hd hes hsame hname)
  obtain ⟨e', he', heq⟩ := List.mem_map.1 (hperm.mem_iff.2 (List.mem_map.2 ⟨e, he, rfl⟩))
  rw [← heq]
  exact isUnreserved_iff.1 h name hname e' he'

theorem hasDistinctSections_of_same (hd : IsDictionary es) (hes : HasSections es)
    (hsame : same (.map es) (.map fs) = true) : HasDistinctSections fs :=
  fun name hname => (keys_perm_of_same (hd.sections name hname)
    (sectionEntries_same hd hes hsame hname)).nodup_iff.1 (hd.sections name hname)

/-- What can be read can be read from the same document. -/
theorem ofValue_of_same (h : Passes es) (hplain : isUnreserved es = true)
    (hd : IsDictionary es) (hsame : same (.map es) (.map fs) = true) :
    Settings.ofValue (.map fs) = .ok (settingsOf fs) :=
  ofValue_eq_settingsOf (h.same hd hsame) (isUnreserved_of_same hplain hd h.sections hsame)
    (hasDistinctSections_of_same hd h.sections hsame)

-- ======================================================== the whole sheet

/-- Settings all of which have a value. -/
structure Sheet where
  factoryNames : Value
  transformableMembers : Value
  extraTransformableMembers : Value
  enabledGroups : Value
  disabledRules : Value
  maxPasses : Value
  extensions : Value
  excludedPatterns : Value
  maxFileSize : Value
  jobs : Value
  strategy : Strategy

namespace Sheet

variable {sheet : Sheet}

/-- What the sheet tells the analysis. -/
def analysis (sheet : Sheet) : List (String × Value) := [
  ("factory_names", sheet.factoryNames),
  ("transformable_members", sheet.transformableMembers),
  ("extra_transformable_members", sheet.extraTransformableMembers)]

/-- Which rules the sheet wants. -/
def rules (sheet : Sheet) : List (String × Value) := [
  ("enabled_groups", sheet.enabledGroups),
  ("disabled_rules", sheet.disabledRules),
  ("max_passes", sheet.maxPasses)]

/-- How the sheet wants files to be processed. -/
def processing (sheet : Sheet) : List (String × Value) := [
  ("extensions", sheet.extensions),
  ("excluded_patterns", sheet.excludedPatterns),
  ("max_file_size", sheet.maxFileSize),
  ("jobs", sheet.jobs),
  ("strategy", .ofString sheet.strategy.name)]

/-- The document of a sheet. -/
def entries (sheet : Sheet) : List (String × Value) := [
  ("analysis", .map sheet.analysis),
  ("rules", .map sheet.rules),
  ("processing", .map sheet.processing)]

theorem isDictionary : IsDictionary sheet.entries := by
  refine ⟨by simp [Distinct, entries], fun name hname => ?_⟩
  simp only [sectionNames, List.mem_cons, List.not_mem_nil, or_false] at hname
  rcases hname with rfl | rfl | rfl
  · simp [entries, analysis, sectionEntries, field?, entries?]
  · simp [entries, rules, sectionEntries, field?, entries?, List.lookup]
  · simp [entries, processing, sectionEntries, field?, entries?, List.lookup]

theorem hasSections : HasSections sheet.entries := by
  intro name hname v hv
  simp only [sectionNames, List.mem_cons, List.not_mem_nil, or_false] at hname
  rcases hname with rfl | rfl | rfl
  · exact ⟨_, (Option.some.inj hv).symm⟩
  · exact ⟨_, (Option.some.inj hv).symm⟩
  · exact ⟨_, (Option.some.inj hv).symm⟩

theorem isUnreserved : isUnreserved sheet.entries = true := rfl

end Sheet

/-- No section has something in the place of the list of its settings. -/
structure IsListed (s : Settings) : Prop where
  analysis : s.analysis.listing = none
  rules : s.rules.listing = none
  processing : s.processing.listing = none

theorem sectionDocument_nil : Settings.sectionDocument none [] = .ok es ↔ es = [] :=
  pure_eq_ok.trans eq_comm

theorem sectionDocument_cons {slot : Slot} {slots : List (String × Slot)} :
    Settings.sectionDocument none ((key, slot) :: slots) = .ok es
      ↔ ∃ v rest, slot = some v ∧ Settings.sectionDocument none slots = .ok rest
        ∧ es = (key, v) :: rest := by
  simp only [Settings.sectionDocument, List.mapM_cons, bind_eq_ok, pure_eq_ok]
  cases slot with
  | none => simp [Settings.held, Except.map]
  | some v => simp [Settings.held, Except.map, eq_comm]

/-- A configuration with a document is a sheet. -/
theorem exists_sheet (hlisted : IsListed s) (h : s.toValue = .ok v) :
    ∃ sheet : Sheet, v = .map sheet.entries := by
  unfold Settings.toValue at h
  rw [hlisted.analysis, hlisted.rules, hlisted.processing] at h
  obtain ⟨a, ha, h⟩ := bind_eq_ok.1 h
  obtain ⟨r, hr, h⟩ := bind_eq_ok.1 h
  obtain ⟨p, hp, h⟩ := bind_eq_ok.1 h
  obtain ⟨name, hname, h⟩ := bind_eq_ok.1 h
  obtain ⟨k, rfl⟩ : ∃ k : Strategy, name = k.name := by
    unfold Settings.strategyName at hname
    split at hname
    · next k _ => exact ⟨k, (Except.ok.inj hname).symm⟩
    · cases hname
  obtain rfl := pure_eq_ok.1 h
  simp only [sectionDocument_cons, sectionDocument_nil] at ha hr hp
  obtain ⟨f, _, -, ⟨t, _, -, ⟨x, _, -, rfl, rfl⟩, rfl⟩, rfl⟩ := ha
  obtain ⟨g, _, -, ⟨d, _, -, ⟨m, _, -, rfl, rfl⟩, rfl⟩, rfl⟩ := hr
  obtain ⟨e, _, -, ⟨y, _, -, ⟨z, _, -, ⟨j, _, -, rfl, rfl⟩, rfl⟩, rfl⟩, rfl⟩ := hp
  exact ⟨⟨f, t, x, g, d, m, e, y, z, j, k⟩, rfl⟩

/-- What a sheet sets is set to the same in the same document. -/
theorem Sheet.exists_setIn_of_same {sheet : Sheet} (hname : name ∈ sectionNames)
    (hsame : same (.map sheet.entries) (.map fs) = true) :
    ∀ e ∈ sectionEntries sheet.entries name,
      ∃ w, setIn fs name e.1 = some w ∧ same e.2 w = true := by
  obtain ⟨_, heq, -, hfields⟩ :=
    same_map_iff.1 (sectionEntries_same isDictionary hasSections hsame hname)
  rwa [← Value.map.inj heq] at hfields

theorem setIn_listingKey (h : isUnreserved es = true) (hname : name ∈ sectionNames) :
    setIn es name Settings.listingKey = none := by
  cases hf : setIn es name Settings.listingKey with
  | none => rfl
  | some v =>
      have hfree := isUnreserved_iff.1 h name hname _ (mem_of_field? hf)
      exact absurd (show Settings.listingKey ∈ Settings.reservedKeys by decide) hfree

theorem strategy_of_setIn {k : Strategy}
    (h : field? "strategy" es = some (.ofString k.name)) :
    (Settings.Holdings.mk none es).strategy = .known k := by
  have hk : Strategy.ofName? (Text.ofString k.name) = some k := by cases k <;> decide
  unfold Settings.Holdings.strategy
  rw [h]
  simp only [Value.ofString, hk, Option.map_some, Option.getD_some]

/-- The same document as that of a sheet is read as a sheet with the same
document. -/
theorem Sheet.exists_same {sheet : Sheet}
    (hsame : same (.map sheet.entries) (.map fs) = true) :
    ∃ other : Sheet, (settingsOf fs).toValue = .ok (.map other.entries)
      ∧ same (.map sheet.entries) (.map other.entries) = true := by
  have hanalysis : ∀ e ∈ sheet.analysis, ∃ w, setIn fs "analysis" e.1 = some w
      ∧ same e.2 w = true :=
    exists_setIn_of_same (show "analysis" ∈ sectionNames by decide) hsame
  have hrules : ∀ e ∈ sheet.rules, ∃ w, setIn fs "rules" e.1 = some w
      ∧ same e.2 w = true :=
    exists_setIn_of_same (show "rules" ∈ sectionNames by decide) hsame
  have hprocessing : ∀ e ∈ sheet.processing, ∃ w, setIn fs "processing" e.1 = some w
      ∧ same e.2 w = true :=
    exists_setIn_of_same (show "processing" ∈ sectionNames by decide) hsame
  simp only [analysis, rules, processing, List.forall_mem_cons, setIn]
    at hanalysis hrules hprocessing
  obtain ⟨⟨f, hf, hsf⟩, ⟨t, ht, hst⟩, ⟨x, hx, hsx⟩, -⟩ := hanalysis
  obtain ⟨⟨g, hg, hsg⟩, ⟨d, hd, hsd⟩, ⟨m, hm, hsm⟩, -⟩ := hrules
  obtain ⟨⟨e, he, hse⟩, ⟨y, hy, hsy⟩, ⟨z, hz, hsz⟩, ⟨j, hj, hsj⟩, ⟨n, hn, hsn⟩, -⟩ :=
    hprocessing
  obtain rfl := eq_text_of_same hsn
  have hfree := isUnreserved_of_same sheet.isUnreserved isDictionary hasSections hsame
  refine ⟨⟨f, t, x, g, d, m, e, y, z, j, sheet.strategy⟩, ?_, ?_⟩
  · simp only [settingsOf, Settings.ofHoldings, Settings.toValue, Settings.strategyName,
      Settings.Holdings.own?_eq, Settings.Holdings.shared_eq, Settings.Holdings.set?_eq,
      hf, ht, hx, hg, hd, hm, he, hy, hz, hj, strategy_of_setIn hn,
      show field? Settings.listingKey (sectionEntries fs "analysis") = none from
        setIn_listingKey hfree (by decide),
      show field? Settings.listingKey (sectionEntries fs "rules") = none from
        setIn_listingKey hfree (by decide),
      show field? Settings.listingKey (sectionEntries fs "processing") = none from
        setIn_listingKey hfree (by decide)]
    rfl
  · simp [same, sameEntries, entries, analysis, rules, processing, field?, List.lookup,
      Value.ofString, hsf, hst, hsx, hsg, hsd, hsm, hse, hsy, hsz, hsj]

-- ============================================================ the file

variable {store store' : Store} {path : String} {format : Format} {cs : List Char}

theorem save_eq_ok : save store s path format = .ok store'
    ↔ ∃ v cs, s.toValue = .ok v ∧ (format.write v).toChars? = some cs
      ∧ store.writeBytes path (Utf8.encode cs) = .ok store' := by
  unfold save
  rw [bind_eq_ok]
  refine exists_congr fun v => ?_
  cases (format.write v).toChars? with
  | none => simp [throw, throwThe, MonadExceptOf.throw]
  | some cs =>
      simp only [Option.some.injEq, exists_and_left, exists_eq_left']
      cases store.writeBytes path (Utf8.encode cs) with
      | ok t => simp [pure_eq_ok]
      | error f => simp [throw, throwThe, MonadExceptOf.throw]

theorem exists?_of_readBytes {b : Bytes} (h : store.readBytes path = .ok b) :
    store.exists? path = true := by
  unfold Store.readBytes at h
  unfold Store.exists?
  cases hg : store.get path with
  | error f =>
      rw [hg] at h
      cases h
  | ok e => rfl

/-- What the reader makes of a file that holds a text. -/
theorem readFile_of_readBytes (h : store.readBytes path = .ok (Utf8.encode cs)) :
    readFile store path = match (Format.ofPath path).parse (Utf8.unifyLines cs) with
      | none => .error (.setting .malformed)
      | some (.map es) => .ok es
      | some _ => .error (.setting .noMapping) := by
  unfold readFile
  rw [exists?_of_readBytes h, h]
  simp only [Utf8.read_encode]
  rfl

theorem fileEntries_of_ne (hpath : path ≠ "") :
    fileEntries store (some path) = readFile store path := by
  have hfilter : (some path).filter (!·.isEmpty) = some path := by
    rw [Option.filter_some, if_pos]
    simpa [String.isEmpty_iff] using hpath
  rw [fileEntries, hfilter]

theorem ne_empty_of_writeBytes {b : Bytes} (h : store.writeBytes path b = .ok store') :
    path ≠ "" := by
  obtain ⟨_, _, _, _, -, hpath, -⟩ := Store.exists_of_writeBytes h
  rintro rfl
  cases hpath

theorem loadFile_eq_ok (hpath : path ≠ "") : loadFile store path = .ok s
    ↔ ∃ es, readFile store path = .ok es ∧ check (.map es) = .ok ()
      ∧ Settings.ofValue (.map es) = .ok s := by
  unfold loadFile
  rw [load_eq_ok, fileEntries_of_ne hpath]
  constructor
  · rintro ⟨fs, merged, hfs, hmerged, hcheck, hs⟩
    obtain rfl : merged = fs := hmerged
    exact ⟨merged, hfs, hcheck rfl, hs⟩
  · rintro ⟨fs, hfs, hcheck, hs⟩
    exact ⟨fs, _, hfs, rfl, fun _ => hcheck, hs⟩

/-- In YAML the sections and their settings come in the order of their
names. -/
theorem sorted_entries (sheet : Sheet) : Yaml.sorted (.map sheet.entries) = .map [
    ("analysis", .map [
      ("extra_transformable_members", Yaml.sorted sheet.extraTransformableMembers),
      ("factory_names", Yaml.sorted sheet.factoryNames),
      ("transformable_members", Yaml.sorted sheet.transformableMembers)]),
    ("processing", .map [
      ("excluded_patterns", Yaml.sorted sheet.excludedPatterns),
      ("extensions", Yaml.sorted sheet.extensions),
      ("jobs", Yaml.sorted sheet.jobs),
      ("max_file_size", Yaml.sorted sheet.maxFileSize),
      ("strategy", .ofString sheet.strategy.name)]),
    ("rules", .map [
      ("disabled_rules", Yaml.sorted sheet.disabledRules),
      ("enabled_groups", Yaml.sorted sheet.enabledGroups),
      ("max_passes", Yaml.sorted sheet.maxPasses)])] := by
  simp [Sheet.entries, Sheet.analysis, Sheet.rules, Sheet.processing, Yaml.sorted,
    Yaml.sortedEntries, Yaml.sortEntries, Value.ofString, List.mergeSort,
    List.MergeSort.Internal.splitInTwo]

/-- In YAML a sheet starts with the name of its first section. -/
theorem exists_write_yaml (sheet : Sheet) :
    ∃ t, Yaml.write (.map sheet.entries) = Text.ofString "analysis:" ++ t := by
  have hkey : Yaml.writeKey 0 "analysis" = Text.ofString "analysis:" := by decide
  rw [Yaml.write, sorted_entries]
  simp only [Yaml.writeEntries, hkey, List.append_assoc]
  exact ⟨_, rfl⟩

/-- A text that starts like a name is no document in JSON. -/
theorem json_parse_eq_none : Json.parse ('a' :: cs) = none := by
  have hword : Json.word? ('a' :: cs) = none := rfl
  have hnumber : Json.number? ('a' :: cs) = none := rfl
  have hskip : Json.skip ('a' :: cs) = 'a' :: cs := rfl
  have hvalue (fuel : Nat) : Json.value? (fuel + 1) ('a' :: cs) = none := by
    rw [Json.value?]
    · rw [hword, hnumber]
      rfl
    all_goals simp
  rw [Json.parse, hskip, hvalue]

theorem yaml_not_json {sheet : Sheet}
    (hcs : (Format.yaml.write (.map sheet.entries)).toChars? = some cs) :
    Format.json.parse (Utf8.unifyLines cs) = none := by
  obtain ⟨t, ht⟩ := exists_write_yaml sheet
  change (Yaml.write (.map sheet.entries)).toChars? = some cs at hcs
  rw [ht] at hcs
  have hofChars := Text.eq_ofChars_of_toChars? hcs
  cases cs with
  | nil => cases hofChars
  | cons c cs =>
      obtain rfl : c = 'a' := by
        have hhead := (List.cons.inj hofChars).1
        exact (Point.scalar.inj hhead).symm
      change Json.parse ('a' :: Utf8.unifyLines cs) = none
      exact json_parse_eq_none

/-- A sheet that has been written as YAML cannot be loaded from a path
that says JSON. -/
theorem loadFile_of_yaml {sheet : Sheet} (hpath : Format.ofPath path = .json)
    (hcs : (Format.yaml.write (.map sheet.entries)).toChars? = some cs)
    (hwrite : store.writeBytes path (Utf8.encode cs) = .ok store') :
    loadFile store' path = .error (.setting .malformed) := by
  have hread := readFile_of_readBytes (Store.readBytes_of_writeBytes hwrite)
  rw [hpath, yaml_not_json hcs] at hread
  rw [loadFile, load, fileEntries_of_ne (ne_empty_of_writeBytes hwrite), hread]
  rfl

/-- What is written in one format can be read in another: in the format
itself, and in YAML also what is written in JSON. -/
def CanRead (reader writer : Format) : Prop := reader = .json → writer = .json

/-- A reader gives back the document that a writer has written. -/
def ReadsBack (v : Value) (reader writer : Format) : Prop :=
  ∀ cs, (writer.write v).toChars? = some cs →
    ∃ w, reader.parse (Utf8.unifyLines cs) = some w ∧ same v w = true

/-- A saved configuration is loaded with the same document, unless it is
saved as YAML and the path says JSON. -/
theorem loads_back_iff (hlisted : IsListed s) (hv : s.toValue = .ok v)
    (hcheck : check v = .ok ())
    (hreads : CanRead (Format.ofPath path) format → ReadsBack v (Format.ofPath path) format)
    (hsave : save store s path format = .ok store') :
    (∃ s', loadFile store' path = .ok s' ∧ ∃ v', s'.toValue = .ok v' ∧ same v v' = true)
      ↔ CanRead (Format.ofPath path) format := by
  obtain ⟨_, cs, hv', hcs, hwrite⟩ := save_eq_ok.1 hsave
  obtain rfl := Except.ok.inj (hv.symm.trans hv')
  obtain ⟨sheet, rfl⟩ := exists_sheet hlisted hv
  have hpath := ne_empty_of_writeBytes hwrite
  have hfile := readFile_of_readBytes (Store.readBytes_of_writeBytes hwrite)
  constructor
  · rintro ⟨s', hload, -⟩ hjson
    cases format with
    | json => rfl
    | yaml =>
        rw [loadFile_of_yaml hjson hcs hwrite] at hload
        cases hload
  · intro hcan
    obtain ⟨w, hparse, hsame⟩ := hreads hcan cs hcs
    obtain ⟨fs, rfl, -⟩ := same_map_iff.1 hsame
    rw [hparse] at hfile
    have hpass := check_map_eq_ok.1 hcheck
    obtain ⟨other, hother, hsameOther⟩ := Sheet.exists_same hsame
    exact ⟨settingsOf fs, (loadFile_eq_ok hpath).2 ⟨fs, hfile,
        check_map_eq_ok.2 (hpass.same Sheet.isDictionary hsame),
        ofValue_of_same hpass Sheet.isUnreserved Sheet.isDictionary hsame⟩,
      _, hother, hsameOther⟩

/-- The sheet that sets nothing. -/
def defaultSheet : Sheet where
  factoryNames := .ofStrings ["$", "jQuery"]
  transformableMembers := .null
  extraTransformableMembers := .list []
  enabledGroups := .ofStrings ["jquery", "legacy"]
  disabledRules := .list []
  maxPasses := .int Engine.defaultMaxPasses
  extensions := .ofStrings [".js", ".mjs", ".cjs", ".jsx"]
  excludedPatterns := .ofStrings ["node_modules", ".git", "*.min.js", "dist", "build", "vendor"]
  maxFileSize := .int (1024 * 1024)
  jobs := .int 1
  strategy := .sequential

theorem loads_back_default :
    ∃ t, save ⟨[]⟩ .default "o.json" .json = .ok t
      ∧ ∃ s', loadFile t "o.json" = .ok s'
        ∧ ∃ v', s'.toValue = .ok v' ∧ same (.map defaultSheet.entries) v' = true := by
  have hread : ((Json.write true (.map defaultSheet.entries)).toChars?.all fun cs =>
      (Json.parse (Utf8.unifyLines cs)).any fun w => same (.map defaultSheet.entries) w)
        = true := by decide +kernel
  obtain ⟨t, ht, -⟩ := exists_eq_ok_of_any (x := save ⟨[]⟩ .default "o.json" .json)
    (p := fun _ => true) (by decide +kernel)
  have hformat : Format.ofPath "o.json" = .json := by decide +kernel
  have hback : ReadsBack (.map defaultSheet.entries) (Format.ofPath "o.json") .json := by
    intro cs hcs
    change (Json.write true (.map defaultSheet.entries)).toChars? = some cs at hcs
    rw [hcs, Option.all_some, Option.any_eq_true] at hread
    rw [hformat]
    exact hread
  exact ⟨t, ht, (loads_back_iff ⟨rfl, rfl, rfl⟩ rfl rfl (fun _ => hback) ht).2 fun _ => rfl⟩

theorem writeBytes_empty (b : Bytes) :
    (Store.mk []).writeBytes "o.json" b = .ok ⟨[("o.json", .file b)]⟩ := by
  have hname : ("o.json".isEmpty || "o.json".startsWith "/") = false := by cbv
  have hsplit : Path.split "o.json" = ["o.json"] := by cbv
  rw [Store.writeBytes, hname, Store.target, hsplit]
  rfl

/-- A configuration that passes the check is saved as YAML and not loaded
from where it has been saved. -/
theorem yaml_not_loaded_as_json :
    ∃ v t, Settings.default.toValue = .ok v ∧ check v = .ok ()
      ∧ save ⟨[]⟩ .default "o.json" .yaml = .ok t
      ∧ loadFile t "o.json" = .error (.setting .malformed) := by
  have hchars : ((Format.yaml.write (.map defaultSheet.entries)).toChars?).isSome = true := by
    change (Yaml.write (.map defaultSheet.entries)).toChars?.isSome = true
    rw [Yaml.write, sorted_entries]
    decide +kernel
  obtain ⟨cs, hcs⟩ := Option.isSome_iff_exists.1 hchars
  have hwrite := writeBytes_empty (Utf8.encode cs)
  exact ⟨_, _, rfl, rfl, save_eq_ok.2 ⟨.map defaultSheet.entries, cs, rfl, hcs, hwrite⟩,
    loadFile_of_yaml (by decide +kernel) hcs hwrite⟩

end Config

end Codemod
