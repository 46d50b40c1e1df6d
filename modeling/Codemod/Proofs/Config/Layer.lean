/-
Settings in layers.

Merging decides key by key (`Value.field?_mergeEntries`) and is a fold:
what comes last is laid over what all before it amount to
(`Config.mergeAll_append_one`). So a loaded configuration has each setting
from the layer next to it that holds one: the environment, the file, what
is built in (`Config.load_layers`). A file that sets a mapping for a whole
section brings in settings that stand nowhere among its own
(`Config.load_brings_in_mapping`).
-/
import Codemod.Config.Source
import Codemod.Proofs.Config.Section

namespace Codemod

namespace Value

variable {k key : String} {v w : Value} {base es upper : List (String × Value)}

/-- No key occurs twice. -/
def Distinct (es : List (String × Value)) : Prop := (es.map Prod.fst).Nodup

-- ============================================================== putting

theorem field?_put_self : field? k (put k v es) = some v := by
  induction es with
  | nil => exact field?_cons_self
  | cons e es ih =>
      obtain ⟨l, u⟩ := e
      rw [put]
      split
      · exact field?_cons_self
      · next hl =>
          have hne : k ≠ l := fun h => hl (by rw [h, beq_self_eq_true])
          rw [field?_cons_of_ne hne, ih]

theorem field?_put_of_ne (h : key ≠ k) : field? key (put k v es) = field? key es := by
  induction es with
  | nil => exact field?_cons_of_ne h
  | cons e es ih =>
      obtain ⟨l, u⟩ := e
      rw [put]
      split
      · next hl =>
          obtain rfl := eq_of_beq hl
          rw [field?_cons_of_ne h, field?_cons_of_ne h]
      · by_cases hkey : key = l
        · rw [hkey, field?_cons_self, field?_cons_self]
        · rw [field?_cons_of_ne hkey, field?_cons_of_ne hkey, ih]

theorem field?_eq_none_iff : field? key es = none ↔ key ∉ es.map Prod.fst := by
  rw [field?, List.lookup_eq_none_iff, List.mem_map]
  constructor
  · rintro h ⟨e, he, rfl⟩
    exact absurd (beq_self_eq_true e.1) (by simpa using h e he)
  · intro h e he
    simpa using fun heq => h ⟨e, he, heq.symm⟩

/-- A key that is new comes last. -/
theorem put_of_not_mem (h : k ∉ es.map Prod.fst) : put k v es = es ++ [(k, v)] := by
  induction es with
  | nil => rfl
  | cons e es ih =>
      obtain ⟨l, u⟩ := e
      rw [List.map_cons, List.mem_cons, not_or] at h
      rw [put, if_neg (by simpa using Ne.symm h.1), ih h.2]
      rfl

/-- A key that is there keeps its place. -/
theorem keys_put_of_mem (h : k ∈ es.map Prod.fst) :
    (put k v es).map Prod.fst = es.map Prod.fst := by
  induction es with
  | nil => cases h
  | cons e es ih =>
      obtain ⟨l, u⟩ := e
      rw [put]
      split
      · next hl => rw [List.map_cons, List.map_cons, eq_of_beq hl]
      · next hl =>
          rw [List.map_cons, List.mem_cons] at h
          have hne : k ≠ l := fun heq => hl (by rw [heq, beq_self_eq_true])
          rw [List.map_cons, List.map_cons, ih (h.resolve_left hne)]

theorem distinct_nil : Distinct [] := List.nodup_nil

theorem Distinct.put (h : Distinct es) : Distinct (put k v es) := by
  by_cases hk : k ∈ es.map Prod.fst
  · rw [Distinct, keys_put_of_mem hk]
    exact h
  · rw [put_of_not_mem hk, Distinct, List.map_append]
    refine List.nodup_append.2 ⟨h, by simp, fun a ha b hb => ?_⟩
    rw [List.map_cons, List.map_nil, List.mem_singleton] at hb
    rintro rfl
    rw [hb] at ha
    exact hk ha

-- ============================================================== merging

theorem mergeValue_none : mergeValue none v = v := by
  cases v <;> rfl

/-- What is no mapping replaces what was there. -/
theorem mergeValue_of_no_map (h : v.entries? = none) (old : Option Value) :
    mergeValue old v = v := by
  cases v <;> first | rfl | cases h

theorem Distinct.mergeEntries (h : Distinct base) : Distinct (mergeEntries base upper) := by
  induction upper generalizing base with
  | nil => exact h
  | cons e upper ih =>
      obtain ⟨k, v⟩ := e
      rw [Value.mergeEntries]
      exact ih h.put

/-- Of two mappings the later one decides on its own keys, where a
mapping is merged with the one under its key. -/
theorem field?_mergeEntries (h : Distinct upper) :
    field? key (mergeEntries base upper)
      = ((field? key upper).map (mergeValue (field? key base))).or (field? key base) := by
  induction upper generalizing base with
  | nil => rfl
  | cons e upper ih =>
      obtain ⟨k, v⟩ := e
      obtain ⟨hk, hupper⟩ := List.nodup_cons.1 h
      rw [mergeEntries, ih hupper]
      by_cases hkey : key = k
      · subst hkey
        rw [field?_eq_none_iff.2 hk, field?_put_self, field?_cons_self]
        rfl
      · rw [field?_put_of_ne hkey, field?_cons_of_ne hkey]

/-- Entries with new keys come behind those that are there. -/
theorem mergeEntries_eq_append (h : Distinct (base ++ upper)) :
    mergeEntries base upper = base ++ upper := by
  induction upper generalizing base with
  | nil => rw [mergeEntries, List.append_nil]
  | cons e upper ih =>
      obtain ⟨k, v⟩ := e
      have hk : k ∉ base.map Prod.fst := by
        rw [Distinct, List.map_append, List.map_cons] at h
        exact fun hmem => (List.nodup_append.1 h).2.2 k hmem k List.mem_cons_self rfl
      rw [mergeEntries, field?_eq_none_iff.2 hk, mergeValue_none, put_of_not_mem hk,
        ih (by rwa [List.append_assoc]), List.append_assoc]
      rfl

theorem mergeEntries_nil (h : Distinct es) : mergeEntries [] es = es :=
  mergeEntries_eq_append h

end Value

namespace Config

open Value

variable {v : Value} {vs ws : List Value} {es base upper inner : List (String × Value)}
  {env : Environment} {name key : String} {s : Settings}

-- ======================================================== merging several

/-- One configuration laid over what those before it amount to. -/
def lay (base : List (String × Value)) (v : Value) : Except Fault (List (String × Value)) :=
  if !v.isTruthy then .ok base
  else match v with
    | .map es => .ok (mergeEntries base es)
    | _ => .error .unstructuredSetting

theorem mergeAll_eq : mergeAll vs = vs.foldlM lay [] := rfl

theorem lay_map : lay base (.map es) = .ok (mergeEntries base es) := by
  cases es <;> rfl

theorem distinct_of_lay (hbase : Distinct base) (h : lay base v = .ok es) : Distinct es := by
  unfold lay at h
  split at h
  · obtain rfl := Except.ok.inj h
    exact hbase
  · split at h
    · obtain rfl := Except.ok.inj h
      exact hbase.mergeEntries
    · cases h

theorem distinct_of_foldlM_lay (hbase : Distinct base) (h : vs.foldlM lay base = .ok es) :
    Distinct es := by
  induction vs generalizing base with
  | nil =>
      obtain rfl := pure_eq_ok.1 h
      exact hbase
  | cons v vs ih =>
      rw [List.foldlM_cons] at h
      obtain ⟨next, hnext, h⟩ := bind_eq_ok.1 h
      exact ih (distinct_of_lay hbase hnext) h

/-- What is merged has no key twice. -/
theorem distinct_of_mergeAll (h : mergeAll vs = .ok es) : Distinct es :=
  distinct_of_foldlM_lay distinct_nil h

/-- Merging is a fold: the last configuration is merged with what those
before it have been merged to. -/
theorem mergeAll_append_one :
    mergeAll (vs ++ [v]) = (mergeAll vs).bind fun es => mergeAll [.map es, v] := by
  rw [mergeAll_eq, List.foldlM_append, ← mergeAll_eq]
  cases h : mergeAll vs with
  | error f => rfl
  | ok es =>
      have hself : lay [] (.map es) = .ok es := by
        rw [lay_map, mergeEntries_nil (distinct_of_mergeAll h)]
      change [v].foldlM lay es = [.map es, v].foldlM lay []
      rw [List.foldlM_cons (l := [v]), hself]
      rfl

/-- A configuration that is empty changes nothing. -/
theorem mergeAll_drop_empty : mergeAll (vs ++ .map [] :: ws) = mergeAll (vs ++ ws) := by
  rw [mergeAll_eq, mergeAll_eq, List.foldlM_append, List.foldlM_append]
  rfl

-- ============================================================== sections

/-- The value that a document sets in a section. -/
def setIn (es : List (String × Value)) (name key : String) : Option Value :=
  field? key (sectionEntries es name)

theorem sectionEntries_of_field? (h : field? name es = some (.map inner)) :
    sectionEntries es name = inner := by
  rw [sectionEntries, h]
  rfl

theorem sectionEntries_of_none (h : field? name es = none) : sectionEntries es name = [] := by
  rw [sectionEntries, h]
  rfl

/-- Sections are merged setting by setting, if the settings that come
over the others are no mappings. -/
theorem setIn_mergeEntries (hupper : Distinct upper)
    (hinner : ∀ v, field? name upper = some v →
      ∃ inner, v = .map inner ∧ Distinct inner ∧ ∀ e ∈ inner, e.2.entries? = none)
    (hbase : ∀ v, field? name base = some v → ∃ inner, v = .map inner) :
    setIn (mergeEntries base upper) name key
      = (setIn upper name key).or (setIn base name key) := by
  have hfield : field? name (mergeEntries base upper)
      = ((field? name upper).map (mergeValue (field? name base))).or (field? name base) :=
    field?_mergeEntries hupper
  unfold setIn
  cases hv : field? name upper with
  | none =>
      have hsame : sectionEntries (mergeEntries base upper) name = sectionEntries base name := by
        rw [sectionEntries, sectionEntries, hfield, hv]
        rfl
      rw [hsame, sectionEntries_of_none hv]
      rfl
  | some v =>
      obtain ⟨inner, rfl, hdistinct, hplain⟩ := hinner v hv
      rw [sectionEntries_of_field? hv]
      have hupper' : ∀ old, (field? key inner).map (mergeValue old) = field? key inner := by
        intro old
        cases hf : field? key inner with
        | none => rfl
        | some w =>
            rw [Option.map_some, mergeValue_of_no_map (hplain _ (mem_of_field? hf))]
      rw [hv] at hfield
      cases hb : field? name base with
      | none =>
          rw [hb] at hfield
          rw [sectionEntries_of_field? hfield, sectionEntries_of_none hb]
          exact Option.or_none.symm
      | some b =>
          obtain ⟨old, rfl⟩ := hbase b hb
          rw [hb] at hfield
          rw [sectionEntries_of_field? hfield, sectionEntries_of_field? hb,
            field?_mergeEntries hdistinct, hupper']

-- =========================================================== environment

theorem given?_eq_some {t : Text} : given? env name = some t
    ↔ ∃ value, env.lookup name = some value ∧ value ≠ "" ∧ t = Text.ofString value := by
  unfold given?
  split
  · next value hvalue =>
      rw [hvalue]
      split
      · next hempty =>
          rw [String.isEmpty_iff] at hempty
          simp [hempty]
      · next hempty =>
          rw [String.isEmpty_iff] at hempty
          constructor
          · intro h
            exact ⟨value, rfl, hempty, (Option.some.inj h).symm⟩
          · rintro ⟨w, hw, -, rfl⟩
            rw [Option.some.inj hw]
  · next hnone => simp [hnone]

/-- A variable sets a list if one of its items is not blank. -/
theorem listSetting?_eq_some : listSetting? env name = some v
    ↔ ∃ value, env.lookup name = some value ∧ items (Text.ofString value) ≠ []
      ∧ v = .list ((items (Text.ofString value)).map .text) := by
  have hgiven : listSetting? env name = some v
      ↔ ∃ t, given? env name = some t ∧ items t ≠ [] ∧ v = .list ((items t).map .text) := by
    unfold listSetting?
    cases hg : given? env name with
    | none => simp
    | some t =>
        simp only [Option.map_some, Option.some.injEq, exists_eq_left']
        cases items t with
        | nil => simp
        | cons a ts => simp [eq_comm]
  rw [hgiven]
  constructor
  · rintro ⟨t, ht, hitems, rfl⟩
    obtain ⟨value, hvalue, -, rfl⟩ := given?_eq_some.1 ht
    exact ⟨value, hvalue, hitems, rfl⟩
  · rintro ⟨value, hvalue, hitems, rfl⟩
    refine ⟨_, given?_eq_some.2 ⟨value, hvalue, ?_, rfl⟩, hitems, rfl⟩
    rintro rfl
    exact hitems rfl

/-- A variable sets a number if it spells one. -/
theorem numberSetting?_eq_some : numberSetting? env name = some v
    ↔ ∃ value n, env.lookup name = some value ∧ wholeNumber? (Text.ofString value) = some n
      ∧ v = .int n := by
  unfold numberSetting?
  rw [Option.map_eq_some_iff]
  constructor
  · rintro ⟨n, hn, rfl⟩
    obtain ⟨t, ht, hn⟩ := Option.bind_eq_some_iff.1 hn
    obtain ⟨value, hvalue, -, rfl⟩ := given?_eq_some.1 ht
    exact ⟨value, n, hvalue, hn, rfl⟩
  · rintro ⟨value, n, hvalue, hn, rfl⟩
    refine ⟨n, Option.bind_eq_some_iff.2 ⟨_, given?_eq_some.2 ⟨value, hvalue, ?_, rfl⟩, hn⟩, rfl⟩
    rintro rfl
    cases hn

/-- A setting of the environment is a list or a number. -/
theorem entries?_listSetting? (h : listSetting? env name = some v) : v.entries? = none := by
  obtain ⟨_, -, -, rfl⟩ := listSetting?_eq_some.1 h
  rfl

theorem entries?_numberSetting? (h : numberSetting? env name = some v) :
    v.entries? = none := by
  obtain ⟨_, _, -, -, rfl⟩ := numberSetting?_eq_some.1 h
  rfl

/-- The settings of a section that are there. -/
def present (settings : List (String × Option Value)) : List (String × Value) :=
  settings.filterMap fun (k, v) => v.map (k, ·)

theorem settingSection_eq {settings : List (String × Option Value)} :
    settingSection name settings
      = if present settings = [] then [] else [(name, .map (present settings))] := by
  unfold settingSection present
  split
  · next h => rw [if_pos h]
  · next h => rw [if_neg h]

theorem field?_settingSection_append_of_ne {settings : List (String × Option Value)}
    (h : key ≠ name) : field? key (settingSection name settings ++ es) = field? key es := by
  rw [settingSection_eq]
  split
  · rfl
  · exact field?_cons_of_ne h

theorem field?_settingSection_append {settings : List (String × Option Value)}
    (h : field? name (settingSection name settings ++ es) = some v) :
    v = .map (present settings) ∨ field? name es = some v := by
  rw [settingSection_eq] at h
  split at h
  · exact Or.inr h
  · exact Or.inl (Option.some.inj (field?_cons_self.symm.trans h)).symm

theorem sectionEntries_settingSection_append {settings : List (String × Option Value)}
    (h : field? name es = none) :
    sectionEntries (settingSection name settings ++ es) name = present settings := by
  rw [settingSection_eq]
  split
  · next hnone => rw [hnone]; exact sectionEntries_of_none h
  · exact sectionEntries_of_field? field?_cons_self

/-- No setting is there twice, and none is a mapping. -/
structure Plain (settings : List (String × Option Value)) : Prop where
  distinct : (settings.map Prod.fst).Nodup
  plain : ∀ e ∈ settings, ∀ v, e.2 = some v → v.entries? = none

theorem keys_present_sublist {settings : List (String × Option Value)} :
    ((present settings).map Prod.fst).Sublist (settings.map Prod.fst) := by
  induction settings with
  | nil => exact List.Sublist.slnil
  | cons e settings ih =>
      obtain ⟨k, slot⟩ := e
      cases slot with
      | none => exact ih.cons k
      | some v => exact ih.cons_cons k

theorem Plain.distinct_present {settings : List (String × Option Value)}
    (h : Plain settings) : Distinct (present settings) :=
  h.distinct.sublist keys_present_sublist

theorem Plain.entries?_present {settings : List (String × Option Value)}
    (h : Plain settings) : ∀ e ∈ present settings, e.2.entries? = none := by
  intro e he
  obtain ⟨⟨k, slot⟩, hmem, heq⟩ := List.mem_filterMap.1 he
  obtain ⟨v, hv, rfl⟩ := Option.map_eq_some_iff.1 heq
  exact h.plain _ hmem v hv

/-- A setting that is there is found under its key. -/
theorem field?_present {settings : List (String × Option Value)}
    (h : (settings.map Prod.fst).Nodup) :
    field? key (present settings) = (settings.lookup key).join := by
  induction settings generalizing key with
  | nil => rfl
  | cons e settings ih =>
      obtain ⟨k, slot⟩ := e
      obtain ⟨hk, hrest⟩ := List.nodup_cons.1 h
      by_cases hkey : key = k
      · subst hkey
        rw [List.lookup_cons_self]
        cases slot with
        | none =>
            refine field?_eq_none_iff.2 fun hmem => hk ?_
            exact keys_present_sublist.subset hmem
        | some w => exact field?_cons_self
      · rw [List.lookup_cons, beq_false_of_ne hkey, ← ih hrest]
        cases slot with
        | none => rfl
        | some w => exact field?_cons_of_ne hkey

/-- What the environment tells the analysis. -/
def environmentAnalysis (env : Environment) : List (String × Option Value) :=
  [("factory_names", listSetting? env "NATIVIZE_FACTORY_NAMES")]

/-- Which rules the environment wants. -/
def environmentRules (env : Environment) : List (String × Option Value) :=
  [("enabled_groups", listSetting? env "NATIVIZE_ENABLED_GROUPS"),
    ("disabled_rules", listSetting? env "NATIVIZE_DISABLED_RULES"),
    ("max_passes", numberSetting? env "NATIVIZE_MAX_PASSES")]

/-- How the environment wants files to be processed. -/
def environmentProcessing (env : Environment) : List (String × Option Value) :=
  [("jobs", numberSetting? env "NATIVIZE_JOBS"),
    ("max_file_size", numberSetting? env "NATIVIZE_MAX_FILE_SIZE")]

theorem ofEnvironment_eq : ofEnvironment env
    = settingSection "analysis" (environmentAnalysis env)
      ++ (settingSection "rules" (environmentRules env)
        ++ (settingSection "processing" (environmentProcessing env) ++ [])) := by
  rw [List.append_nil, ← List.append_assoc]
  rfl

theorem plain_environment : Plain (environmentAnalysis env) ∧ Plain (environmentRules env)
    ∧ Plain (environmentProcessing env) := by
  have hlist {name : String} : ∀ v, listSetting? env name = some v → v.entries? = none :=
    fun v => entries?_listSetting?
  have hnumber {name : String} : ∀ v, numberSetting? env name = some v → v.entries? = none :=
    fun v => entries?_numberSetting?
  refine ⟨⟨?_, ?_⟩, ⟨?_, ?_⟩, ⟨?_, ?_⟩⟩
  · simp [environmentAnalysis]
  · simpa [environmentAnalysis] using hlist
  · simp [environmentRules]
  · simpa [environmentRules] using ⟨hlist, hlist, hnumber⟩
  · simp [environmentProcessing]
  · simpa [environmentProcessing] using ⟨hnumber, hnumber⟩

theorem distinct_ofEnvironment : Distinct (ofEnvironment env) := by
  rw [ofEnvironment_eq, settingSection_eq, settingSection_eq, settingSection_eq]
  split <;> split <;> split <;> simp [Distinct]

theorem sectionEntries_ofEnvironment_analysis :
    sectionEntries (ofEnvironment env) "analysis" = present (environmentAnalysis env) := by
  rw [ofEnvironment_eq]
  refine sectionEntries_settingSection_append ?_
  rw [field?_settingSection_append_of_ne (by decide),
    field?_settingSection_append_of_ne (by decide), field?_nil]

theorem sectionEntries_ofEnvironment_rules :
    sectionEntries (ofEnvironment env) "rules" = present (environmentRules env) := by
  rw [ofEnvironment_eq, sectionEntries, field?_settingSection_append_of_ne (by decide),
    ← sectionEntries]
  refine sectionEntries_settingSection_append ?_
  rw [field?_settingSection_append_of_ne (by decide), field?_nil]

theorem sectionEntries_ofEnvironment_processing :
    sectionEntries (ofEnvironment env) "processing"
      = present (environmentProcessing env) := by
  rw [ofEnvironment_eq, sectionEntries, field?_settingSection_append_of_ne (by decide),
    field?_settingSection_append_of_ne (by decide), ← sectionEntries]
  exact sectionEntries_settingSection_append field?_nil

/-- A section of the environment is a mapping of plain settings. -/
theorem exists_plain_of_field? (h : field? name (ofEnvironment env) = some v) :
    ∃ settings, Plain settings ∧ v = .map (present settings) := by
  have hstep {settings : List (String × Option Value)} {key : String}
      {es : List (String × Value)}
      (hplain : Plain settings)
      (h : field? name (settingSection key settings ++ es) = some v) :
      (∃ settings, Plain settings ∧ v = .map (present settings))
        ∨ field? name es = some v := by
    by_cases hkey : name = key
    · subst hkey
      exact (field?_settingSection_append h).imp_left fun heq => ⟨settings, hplain, heq⟩
    · rw [field?_settingSection_append_of_ne hkey] at h
      exact Or.inr h
  obtain ⟨ha, hr, hp⟩ : Plain (environmentAnalysis env) ∧ Plain (environmentRules env)
    ∧ Plain (environmentProcessing env) := plain_environment
  rw [ofEnvironment_eq] at h
  rcases hstep ha h with hfound | h
  · exact hfound
  · rcases hstep hr h with hfound | h
    · exact hfound
    · rcases hstep hp h with hfound | h
      · exact hfound
      · cases h

theorem setIn_ofEnvironment_analysis : setIn (ofEnvironment env) "analysis" key
    = ((environmentAnalysis env).lookup key).join := by
  rw [setIn, sectionEntries_ofEnvironment_analysis,
    field?_present plain_environment.1.distinct]

theorem setIn_ofEnvironment_rules : setIn (ofEnvironment env) "rules" key
    = ((environmentRules env).lookup key).join := by
  rw [setIn, sectionEntries_ofEnvironment_rules,
    field?_present plain_environment.2.1.distinct]

theorem setIn_ofEnvironment_processing : setIn (ofEnvironment env) "processing" key
    = ((environmentProcessing env).lookup key).join := by
  rw [setIn, sectionEntries_ofEnvironment_processing,
    field?_present plain_environment.2.2.distinct]

-- =============================================================== loading

/-- The sections that a document has are mappings. -/
def HasSections (es : List (String × Value)) : Prop :=
  ∀ name ∈ sectionNames, ∀ v, field? name es = some v → ∃ inner, v = .map inner

/-- The environment is laid over a file setting by setting. -/
theorem setIn_environment (hes : HasSections es) (hname : name ∈ sectionNames) :
    setIn (mergeEntries es (ofEnvironment env)) name key
      = (setIn (ofEnvironment env) name key).or (setIn es name key) := by
  refine setIn_mergeEntries distinct_ofEnvironment (fun v hv => ?_) (hes name hname)
  obtain ⟨settings, hplain, rfl⟩ := exists_plain_of_field? hv
  exact ⟨_, rfl, hplain.distinct_present, hplain.entries?_present⟩

/-- The environment sets nothing for a whole section. -/
theorem KeepsSections.environment (h : KeepsSections es) (hes : HasSections es) :
    KeepsSections (mergeEntries es (ofEnvironment env)) := by
  intro name hname
  have hkeep : setIn es name Settings.mappingKey = none := h name hname
  change setIn _ name Settings.mappingKey = none
  rw [setIn_environment hes hname, hkeep, Option.or_none]
  simp only [sectionNames, List.mem_cons, List.not_mem_nil, or_false] at hname
  rcases hname with rfl | rfl | rfl
  · exact setIn_ofEnvironment_analysis
  · exact setIn_ofEnvironment_rules
  · exact setIn_ofEnvironment_processing

theorem load_eq_ok {store : Store} {r : Request} : load store env r = .ok s
    ↔ ∃ es merged, fileEntries store r.path = .ok es
      ∧ merged = mergeEntries es (ofEnvironment (if r.useEnvironment then env else []))
      ∧ (r.validate = true → check (.map merged) = .ok ())
      ∧ Settings.ofValue (.map merged) = .ok s := by
  have henv : (if r.useEnvironment then ofEnvironment env else [])
      = ofEnvironment (if r.useEnvironment then env else []) := by
    cases r.useEnvironment <;> rfl
  unfold load
  simp only [bind_eq_ok, henv]
  refine exists_congr fun es => ?_
  cases r.validate with
  | false => simp
  | true =>
      simp only [if_true, bind_eq_ok, exists_and_left, exists_eq_left]
      exact and_congr_right fun _ =>
        ⟨fun ⟨⟨⟩, hcheck, h⟩ => ⟨fun _ => hcheck, h⟩, fun ⟨hcheck, h⟩ => ⟨(), hcheck trivial, h⟩⟩

end Config

/-- The document of what is set as the strategy. -/
def StrategySetting.document : StrategySetting → Value
  | .known k => .ofString k.name
  | .other v => v

namespace Config

open Value

/-- Settings of which each is the one of the environment where that has
it, else the one of the file, else the one that is built in. -/
structure Layers (env : Environment) (es : List (String × Value)) (s : Settings) : Prop where
  factoryNames : s.analysis.factoryNames
    = ((listSetting? env "NATIVIZE_FACTORY_NAMES").or (setIn es "analysis" "factory_names")).or
      Settings.default.analysis.factoryNames
  transformableMembers : s.analysis.transformableMembers
    = (setIn es "analysis" "transformable_members").getD
      Settings.default.analysis.transformableMembers
  extraTransformableMembers : s.analysis.extraTransformableMembers
    = (setIn es "analysis" "extra_transformable_members").or
      Settings.default.analysis.extraTransformableMembers
  enabledGroups : s.rules.enabledGroups
    = ((listSetting? env "NATIVIZE_ENABLED_GROUPS").or (setIn es "rules" "enabled_groups")).or
      Settings.default.rules.enabledGroups
  disabledRules : s.rules.disabledRules
    = ((listSetting? env "NATIVIZE_DISABLED_RULES").or (setIn es "rules" "disabled_rules")).or
      Settings.default.rules.disabledRules
  maxPasses : s.rules.maxPasses
    = ((numberSetting? env "NATIVIZE_MAX_PASSES").or (setIn es "rules" "max_passes")).getD
      Settings.default.rules.maxPasses
  extensions : s.processing.extensions
    = (setIn es "processing" "extensions").or Settings.default.processing.extensions
  excludedPatterns : s.processing.excludedPatterns
    = (setIn es "processing" "excluded_patterns").or
      Settings.default.processing.excludedPatterns
  maxFileSize : s.processing.maxFileSize
    = ((numberSetting? env "NATIVIZE_MAX_FILE_SIZE").or
        (setIn es "processing" "max_file_size")).getD
      Settings.default.processing.maxFileSize
  jobs : s.processing.jobs
    = ((numberSetting? env "NATIVIZE_JOBS").or (setIn es "processing" "jobs")).getD
      Settings.default.processing.jobs
  strategy : s.processing.strategy.document
    = (setIn es "processing" "strategy").getD Settings.default.processing.strategy.document
  /-- A text is read as the strategy it names. -/
  named : ∀ t, setIn es "processing" "strategy" = some (.text t) →
    ∃ k, s.processing.strategy = .known k

variable {v : Value} {vs ws : List Value} {es merged : List (String × Value)}
  {env : Environment} {s : Settings} {store : Store} {r : Request}

theorem document_ofName? {t : Text} {k : Strategy} (h : Strategy.ofName? t = some k) :
    (StrategySetting.known k).document = .text t := by
  have hk := List.find?_some h
  rw [StrategySetting.document, Value.ofString, eq_of_beq hk]

/-- The strategy of a section that holds its own entries. -/
theorem strategy_spec (h : ∀ e ∈ es, Settings.checkProcessable e.1 e.2 = .ok ()) :
    (Settings.Holdings.mk none es).strategy.document
        = (field? "strategy" es).getD Settings.default.processing.strategy.document
      ∧ ∀ t, field? "strategy" es = some (.text t) →
        ∃ k, (Settings.Holdings.mk none es).strategy = .known k := by
  unfold Settings.Holdings.strategy
  cases hf : field? "strategy" es with
  | none =>
      rw [Settings.Holdings.set?_eq, hf]
      exact ⟨rfl, fun t ht => nomatch ht⟩
  | some v =>
      have hset := h _ (mem_of_field? hf)
      cases v with
      | text t =>
          have hname : (Strategy.ofName? t).isSome = true := by
            cases hname : (Strategy.ofName? t).isSome with
            | true => rfl
            | false =>
                have herror : Settings.checkProcessable "strategy" (.text t)
                    = .error (.unknownStrategy t.display) := if_neg (by simp [hname])
                rw [herror] at hset
                cases hset
          obtain ⟨k, hk⟩ := Option.isSome_iff_exists.1 hname
          simp only [hk, Option.map_some, Option.getD_some]
          exact ⟨document_ofName? hk, fun u hu => ⟨k, rfl⟩⟩
      | _ => exact ⟨rfl, fun t ht => nomatch ht⟩

theorem layers_of_ofValue (hes : HasSections es) (hkeep : KeepsSections es)
    (h : Settings.ofValue (.map (mergeEntries es (ofEnvironment env))) = .ok s) :
    Layers env es s := by
  have hs := eq_settingsOf h (hkeep.environment hes)
  obtain ⟨a, r, p, hread, -⟩ := Settings.ofValue_map_eq_ok.1 h
  have hprocessing := hread.processingSet
  rw [← sectionEntries_eq_of_sectionOf hread.processing] at hprocessing
  obtain ⟨hdocument, hnamed⟩ := strategy_spec hprocessing
  have hanalysis (key : String) : setIn (mergeEntries es (ofEnvironment env)) "analysis" key
      = ((environmentAnalysis env).lookup key).join.or (setIn es "analysis" key) := by
    rw [setIn_environment hes (by decide), setIn_ofEnvironment_analysis]
  have hrules (key : String) : setIn (mergeEntries es (ofEnvironment env)) "rules" key
      = ((environmentRules env).lookup key).join.or (setIn es "rules" key) := by
    rw [setIn_environment hes (by decide), setIn_ofEnvironment_rules]
  have hprocess (key : String) : setIn (mergeEntries es (ofEnvironment env)) "processing" key
      = ((environmentProcessing env).lookup key).join.or (setIn es "processing" key) := by
    rw [setIn_environment hes (by decide), setIn_ofEnvironment_processing]
  have hshared {name key : String} {v : Value} {slot : Option Value}
      (h : setIn (mergeEntries es (ofEnvironment env)) name key = slot) :
      (Settings.Holdings.mk none
        (sectionEntries (mergeEntries es (ofEnvironment env)) name)).shared key v = slot.getD v :=
    Settings.Holdings.shared_eq.trans (congrArg (·.getD v) h)
  have hown {name key : String} {unset slot : Option Value}
      (h : setIn (mergeEntries es (ofEnvironment env)) name key = slot) :
      (Settings.Holdings.mk none
        (sectionEntries (mergeEntries es (ofEnvironment env)) name)).own? key unset
          = slot.or unset :=
    congrArg (·.or unset) h
  have hstrategy := hprocess "strategy"
  rw [setIn] at hstrategy
  rw [hstrategy] at hdocument hnamed
  subst hs
  exact {
    factoryNames := hown (hanalysis "factory_names")
    transformableMembers := hshared (hanalysis "transformable_members")
    extraTransformableMembers := hown (hanalysis "extra_transformable_members")
    enabledGroups := hown (hrules "enabled_groups")
    disabledRules := hown (hrules "disabled_rules")
    maxPasses := hshared (hrules "max_passes")
    extensions := hown (hprocess "extensions")
    excludedPatterns := hown (hprocess "excluded_patterns")
    maxFileSize := hshared (hprocess "max_file_size")
    jobs := hshared (hprocess "jobs")
    strategy := hdocument
    named := hnamed }

/-- What is loaded has each setting from the layer next to it that holds
one, and merging is a fold over configurations. -/
theorem load_layers (env : Environment) (vs : List Value) :
    (∀ store r es s, load store env r = .ok s → fileEntries store r.path = .ok es →
      HasSections es → KeepsSections es →
      Layers (if r.useEnvironment then env else []) es s)
    ∧ (∀ name v, listSetting? env name = some v ↔
      ∃ value, env.lookup name = some value ∧ items (Text.ofString value) ≠ []
        ∧ v = .list ((items (Text.ofString value)).map .text))
    ∧ (∀ name v, numberSetting? env name = some v ↔
      ∃ value n, env.lookup name = some value
        ∧ wholeNumber? (Text.ofString value) = some n ∧ v = .int n)
    ∧ (∀ v, mergeAll (vs ++ [v]) = (mergeAll vs).bind fun es => mergeAll [.map es, v])
    ∧ ∀ ws, mergeAll (vs ++ .map [] :: ws) = mergeAll (vs ++ ws) := by
  refine ⟨fun store r es s hload hfile hes hkeep => ?_,
    fun _ _ => listSetting?_eq_some, fun _ _ => numberSetting?_eq_some,
    fun _ => mergeAll_append_one, fun _ => mergeAll_drop_empty⟩
  obtain ⟨_, _, hfile', rfl, -, hread⟩ := load_eq_ok.1 hload
  obtain rfl := Except.ok.inj (hfile.symm.trans hfile')
  exact layers_of_ofValue hes hkeep hread

/-- A file that sets the number of passes. -/
def passesFile : Store := ⟨[("c.json", .file (Utf8.encode
  "\x7b\"rules\": \x7b\"max_passes\": 3\x7d\x7d".toList))]⟩

/-- A file in which a mapping stands for all of a section. -/
def mappingFile : Store := ⟨[("c.json", .file (Utf8.encode
  "\x7b\"rules\": \x7b\"__dict__\": \x7b\"enabled_groups\": [\"legacy\"], \"disabled_rules\": [], \"max_passes\": 3\x7d\x7d\x7d".toList))]⟩

theorem hasSections_of_all (h : (sectionNames.all fun name =>
    (field? name es).all (·.entries?.isSome)) = true) : HasSections es := by
  intro name hname v hv
  have hall := List.all_eq_true.1 h name hname
  rw [hv, Option.all_some, Option.isSome_iff_exists] at hall
  exact hall.imp fun inner hinner => entries?_eq_some.1 hinner

theorem keepsSections_of_all (h : (sectionNames.all fun name =>
    (setIn es name Settings.mappingKey).isNone) = true) : KeepsSections es :=
  fun name hname => Option.isNone_iff_eq_none.1 (List.all_eq_true.1 h name hname)

/-- Only an integer counts as an integer above one. -/
theorem eq_int_of_int? {v : Value} {n : Int} (h : v.int? = some n) (hn : 1 < n) :
    v = .int n := by
  cases v with
  | int m => rw [Value.int?, Option.some.injEq] at h; rw [h]
  | bool b => cases b <;> simp only [Value.int?, Option.some.injEq] at h <;> omega
  | _ => cases h

theorem exists_entries_passesFile :
    ∃ es, fileEntries passesFile (some "c.json") = .ok es ∧ HasSections es
      ∧ KeepsSections es ∧ setIn es "rules" "max_passes" = some (.int 3) := by
  obtain ⟨es, hes, h⟩ := exists_eq_ok_of_any
    (x := fileEntries passesFile (some "c.json"))
    (p := fun es => (sectionNames.all fun name => (field? name es).all (·.entries?.isSome))
      && ((sectionNames.all fun name => (setIn es name Settings.mappingKey).isNone)
        && (setIn es "rules" "max_passes").bind Value.int? == some 3)) (by decide +kernel)
  rw [Bool.and_eq_true, Bool.and_eq_true, beq_iff_eq, Option.bind_eq_some_iff] at h
  obtain ⟨hsections, hkeep, v, hv, hthree⟩ := h
  refine ⟨es, hes, hasSections_of_all hsections, keepsSections_of_all hkeep, ?_⟩
  rw [hv, eq_int_of_int? hthree (by decide)]

/-- The environment wins over the file, and a variable that spells no
number leaves what the file sets. -/
theorem load_layers_passes :
    (∃ s, load passesFile [("NATIVIZE_MAX_PASSES", " 7 ")] ⟨some "c.json", true, true⟩ = .ok s
      ∧ s.rules.maxPasses = .int 7)
    ∧ ∃ s, load passesFile [("NATIVIZE_MAX_PASSES", "7x")] ⟨some "c.json", true, true⟩ = .ok s
      ∧ s.rules.maxPasses = .int 3 := by
  obtain ⟨es, hes, hsections, hkeep, hpasses⟩ := exists_entries_passesFile
  obtain ⟨s, hs, -⟩ := exists_eq_ok_of_any (p := fun _ => true)
    (x := load passesFile [("NATIVIZE_MAX_PASSES", " 7 ")] ⟨some "c.json", true, true⟩)
    (by decide +kernel)
  obtain ⟨t, ht, -⟩ := exists_eq_ok_of_any (p := fun _ => true)
    (x := load passesFile [("NATIVIZE_MAX_PASSES", "7x")] ⟨some "c.json", true, true⟩)
    (by decide +kernel)
  have hseven : numberSetting? [("NATIVIZE_MAX_PASSES", " 7 ")] "NATIVIZE_MAX_PASSES"
      = some (.int 7) :=
    ((load_layers _ []).2.2.1 _ _).2 ⟨" 7 ", 7, rfl, by decide, rfl⟩
  have hnone : numberSetting? [("NATIVIZE_MAX_PASSES", "7x")] "NATIVIZE_MAX_PASSES"
      = none := by
    have hword : wholeNumber? (Text.ofString "7x") = none := by decide
    cases hset : numberSetting? [("NATIVIZE_MAX_PASSES", "7x")] "NATIVIZE_MAX_PASSES" with
    | none => rfl
    | some v =>
        obtain ⟨_, n, hvalue, hn, -⟩ := ((load_layers _ []).2.2.1 _ _).1 hset
        obtain rfl := Option.some.inj hvalue
        rw [hword] at hn
        cases hn
  refine ⟨⟨s, hs, ?_⟩, t, ht, ?_⟩
  · rw [((load_layers _ []).1 _ _ es s hs hes hsections hkeep).maxPasses, if_pos rfl, hseven]
    rfl
  · rw [((load_layers _ []).1 _ _ es t ht hes hsections hkeep).maxPasses, if_pos rfl, hnone,
      hpasses]
    rfl

/-- A file sets no number of passes, yet three are made: the mapping that
is set for all of the section is read as the section. -/
theorem load_brings_in_mapping :
    ∃ es s, fileEntries mappingFile (some "c.json") = .ok es ∧ HasSections es
      ∧ setIn es "rules" "max_passes" = none
      ∧ load mappingFile [] ⟨some "c.json", true, true⟩ = .ok s
      ∧ s.rules.maxPasses ≠ Settings.default.rules.maxPasses := by
  obtain ⟨es, hes, h⟩ := exists_eq_ok_of_any
    (x := fileEntries mappingFile (some "c.json"))
    (p := fun es => (sectionNames.all fun name => (field? name es).all (·.entries?.isSome))
      && (setIn es "rules" "max_passes").isNone) (by decide +kernel)
  obtain ⟨s, hs, hpasses⟩ := exists_eq_ok_of_any
    (x := load mappingFile [] ⟨some "c.json", true, true⟩)
    (p := fun s => s.rules.maxPasses.int? == some 3) (by decide +kernel)
  rw [Bool.and_eq_true] at h
  refine ⟨es, s, hes, hasSections_of_all h.1, Option.isNone_iff_eq_none.1 h.2, hs, ?_⟩
  intro heq
  rw [heq] at hpasses
  cases hpasses

end Config

end Codemod
