/-
The sections of a configuration.

A section is read entry by entry: some names cannot be set, and a mapping
that is set for all of the section leaves nothing of what stands in front
of it. Where no such mapping is set, a section holds its entries
(`Holdings.ofEntries_eq`) and a setting has the value under its key or
the one that is built in (`Holdings.own?_eq`, `Holdings.shared_eq`).

What a check accepts is told setting by setting (`check_map_eq_ok`).
-/
import Codemod.Config.Check

namespace Codemod

/-- A check of all members succeeds if it does for each. -/
theorem forM_eq_ok {α : Type} {f : α → Except Fault Unit} {l : List α} :
    l.forM f = .ok () ↔ ∀ a ∈ l, f a = .ok () := by
  induction l with
  | nil => simp [pure, Except.pure]
  | cons a l ih =>
      rw [List.forM_eq_forM, List.forM_cons, ← List.forM_eq_forM, List.forall_mem_cons,
        ← ih]
      cases f a <;> simp [bind, Except.bind]

/-- What comes out of an evaluation that succeeds. -/
theorem exists_eq_ok_of_any {α : Type} {x : Except Fault α} {p : α → Bool}
    (h : x.toOption.any p = true) : ∃ a, x = .ok a ∧ p a = true := by
  cases x with
  | error f => cases h
  | ok a => exact ⟨a, rfl, h⟩

namespace Value

variable {k key : String} {v w : Value} {es : List (String × Value)}

theorem field?_nil : field? key [] = none := rfl

theorem field?_cons_self : field? key ((key, v) :: es) = some v := by
  rw [field?, List.lookup_cons_self]

theorem field?_cons_of_ne (h : key ≠ k) : field? key ((k, v) :: es) = field? key es := by
  rw [field?, List.lookup_cons, beq_false_of_ne h]
  rfl

theorem mem_of_field? (h : field? key es = some v) : (key, v) ∈ es := by
  induction es with
  | nil => cases h
  | cons e es ih =>
      obtain ⟨k, w⟩ := e
      by_cases hk : key = k
      · subst hk
        rw [field?_cons_self] at h
        exact List.mem_cons.2 (Or.inl (by rw [Option.some.inj h]))
      · rw [field?_cons_of_ne hk] at h
        exact List.mem_cons_of_mem _ (ih h)

theorem entries?_eq_some : v.entries? = some es ↔ v = .map es := by
  cases v <;> simp [entries?]

end Value

namespace Settings

open Value

variable {key : String} {unset v : Value} {es a r p : List (String × Value)} {s : Settings}

-- ============================================================== holdings

/-- A section in which nothing is set for all of it holds its entries. -/
theorem Holdings.ofEntries_eq (h : field? mappingKey es = none) :
    Holdings.ofEntries es = ⟨none, es⟩ := by
  induction es with
  | nil => rfl
  | cons e es ih =>
      obtain ⟨k, v⟩ := e
      have hk : mappingKey ≠ k := by
        rintro rfl
        rw [field?_cons_self] at h
        cases h
      rw [field?_cons_of_ne hk] at h
      rw [Holdings.ofEntries, ih h, beq_false_of_ne hk.symm]
      rfl

theorem Holdings.own?_eq (slot : Slot) :
    (Holdings.mk none es).own? key slot = (field? key es).or slot := rfl

theorem Holdings.set?_eq : (Holdings.mk none es).set? key = field? key es := by
  exact Option.or_none

theorem Holdings.shared_eq :
    (Holdings.mk none es).shared key unset = (field? key es).getD unset := by
  rw [shared, set?_eq]

-- =============================================================== reading

/-- What a document has to hold for its settings to be read: its sections
are mappings, and no name is set that cannot be. -/
structure Readable (es a r p : List (String × Value)) : Prop where
  analysis : sectionOf "analysis" es = .ok a
  rules : sectionOf "rules" es = .ok r
  processing : sectionOf "processing" es = .ok p
  analysisSet : ∀ e ∈ a, checkAssignable e.1 e.2 = .ok ()
  rulesSet : ∀ e ∈ r, checkAssignable e.1 e.2 = .ok ()
  processingSet : ∀ e ∈ p, checkProcessable e.1 e.2 = .ok ()

theorem ofValue_map_eq_ok : ofValue (.map es) = .ok s
    ↔ ∃ a r p, Readable es a r p
      ∧ s = ofHoldings (.ofEntries a) (.ofEntries r) (.ofEntries p) := by
  constructor
  · intro h
    obtain ⟨a, ha, h⟩ := bind_eq_ok.1 h
    obtain ⟨⟨⟩, hasset, h⟩ := bind_eq_ok.1 h
    obtain ⟨r, hr, h⟩ := bind_eq_ok.1 h
    obtain ⟨⟨⟩, hrset, h⟩ := bind_eq_ok.1 h
    obtain ⟨p, hp, h⟩ := bind_eq_ok.1 h
    obtain ⟨⟨⟩, hpset, h⟩ := bind_eq_ok.1 h
    exact ⟨a, r, p, ⟨ha, hr, hp, forM_eq_ok.1 hasset, forM_eq_ok.1 hrset,
      forM_eq_ok.1 hpset⟩, (pure_eq_ok.1 h).symm⟩
  · rintro ⟨a, r, p, h, rfl⟩
    exact bind_eq_ok.2 ⟨a, h.analysis, bind_eq_ok.2 ⟨(), forM_eq_ok.2 h.analysisSet,
      bind_eq_ok.2 ⟨r, h.rules, bind_eq_ok.2 ⟨(), forM_eq_ok.2 h.rulesSet,
        bind_eq_ok.2 ⟨p, h.processing, bind_eq_ok.2 ⟨(), forM_eq_ok.2 h.processingSet,
          rfl⟩⟩⟩⟩⟩⟩

end Settings

namespace Config

open Value

variable {v w : Value} {es inner : List (String × Value)} {s : Settings}
  {name key : String} {test : Value → Bool} {f : SettingFault}

-- ============================================================== checking

theorem need_eq_ok {b : Bool} : need b f = .ok () ↔ b = true := by
  cases b <;> simp [need]

theorem checkKey_eq_ok : checkKey es key test f = .ok ()
    ↔ ∀ v, field? key es = some v → test v = true := by
  unfold checkKey
  cases field? key es with
  | none => simp
  | some v => simp [need_eq_ok]

/-- What the check asks of the entries of a configuration. -/
structure Passes (es : List (String × Value)) : Prop where
  sections : ∀ name ∈ sectionNames, ∀ v, field? name es = some v → ∃ inner, v = .map inner
  words : ∀ key ∈ ["factory_names", "transformable_members", "extra_transformable_members"],
    ∀ v, field? key (sectionEntries es "analysis") = some v → isWordList v = true
  factoryNames : ∀ v, field? "factory_names" (sectionEntries es "analysis") = some v →
    v.isTruthy = true
  groups : ∀ v, field? "enabled_groups" (sectionEntries es "rules") = some v →
    isListOf (isNameIn groupNames) v = true
  disabledRules : ∀ v, field? "disabled_rules" (sectionEntries es "rules") = some v →
    isListOf (fun _ => true) v = true
  maxPasses : ∀ v, field? "max_passes" (sectionEntries es "rules") = some v →
    isPositive v = true
  maxFileSize : ∀ v, field? "max_file_size" (sectionEntries es "processing") = some v →
    isPositive v = true
  jobs : ∀ v, field? "jobs" (sectionEntries es "processing") = some v →
    isPositive v = true
  strategy : ∀ v, field? "strategy" (sectionEntries es "processing") = some v →
    isNameIn (Strategy.all.map (·.name)) v = true
  extensions : ∀ v, field? "extensions" (sectionEntries es "processing") = some v →
    isListOf isExtension v = true

theorem check_map_eq_ok : check (.map es) = .ok () ↔ Passes es := by
  have hmap {v : Value} : v.entries?.isSome = true ↔ ∃ inner, v = .map inner := by
    rw [Option.isSome_iff_exists]
    exact exists_congr fun inner => entries?_eq_some
  have hunit {p : Unit → Prop} : (∃ a, p a) ↔ p () :=
    ⟨fun ⟨⟨⟩, h⟩ => h, fun h => ⟨(), h⟩⟩
  simp only [check, checkEntries, checkAnalysis, checkRules, checkProcessing, bind_eq_ok,
    forM_eq_ok, checkKey_eq_ok, hmap, hunit]
  constructor
  · rintro ⟨hsec, ⟨hwords, hnames⟩, ⟨hgroups, hdisabled, hpasses⟩, hsize, hjobs, hstrategy,
      hext⟩
    exact ⟨hsec, hwords, hnames, hgroups, hdisabled, hpasses, hsize, hjobs, hstrategy, hext⟩
  · intro h
    exact ⟨h.sections, ⟨h.words, h.factoryNames⟩, ⟨h.groups, h.disabledRules, h.maxPasses⟩,
      h.maxFileSize, h.jobs, h.strategy, h.extensions⟩

theorem exists_map_of_check (h : check v = .ok ()) : ∃ es, v = .map es := by
  cases v with
  | map es => exact ⟨es, rfl⟩
  | _ => cases h

-- =============================================================== reading

/-- The entries that are checked are those that are read. -/
theorem sectionEntries_eq_of_sectionOf (h : Settings.sectionOf name es = .ok inner) :
    sectionEntries es name = inner := by
  unfold Settings.sectionOf at h
  unfold sectionEntries
  split at h
  · next hf =>
      rw [hf]
      exact Except.ok.inj h
  · next hf =>
      rw [hf]
      exact Except.ok.inj h
  · cases h

theorem Passes.sectionOf (h : Passes es) (hname : name ∈ sectionNames) :
    Settings.sectionOf name es = .ok (sectionEntries es name) := by
  unfold Settings.sectionOf sectionEntries
  cases hf : field? name es with
  | none => rfl
  | some v =>
      obtain ⟨inner, rfl⟩ := h.sections name hname v hf
      rfl

theorem isUnreserved_iff : isUnreserved es = true
    ↔ ∀ name ∈ sectionNames, ∀ e ∈ sectionEntries es name,
      e.1 ∉ Settings.reservedKeys := by
  simp only [isUnreserved, List.all_eq_true, Bool.not_eq_true', List.contains_eq_mem,
    decide_eq_false_iff_not]

/-- Nothing is set that takes the place of a whole section. -/
def KeepsSections (es : List (String × Value)) : Prop :=
  ∀ name ∈ sectionNames, field? Settings.mappingKey (sectionEntries es name) = none

theorem keepsSections_of_isUnreserved (h : isUnreserved es = true) : KeepsSections es := by
  intro name hname
  cases hf : field? Settings.mappingKey (sectionEntries es name) with
  | none => rfl
  | some v =>
      exact absurd (List.mem_cons_self) (isUnreserved_iff.1 h name hname _ (mem_of_field? hf))

/-- The settings that sections make of which none is replaced as a
whole. -/
def settingsOf (es : List (String × Value)) : Settings :=
  .ofHoldings ⟨none, sectionEntries es "analysis"⟩ ⟨none, sectionEntries es "rules"⟩
    ⟨none, sectionEntries es "processing"⟩

theorem eq_settingsOf (h : Settings.ofValue (.map es) = .ok s)
    (hkeep : KeepsSections es) : s = settingsOf es := by
  obtain ⟨a, r, p, hread, rfl⟩ := Settings.ofValue_map_eq_ok.1 h
  rw [settingsOf, ← Settings.Holdings.ofEntries_eq (hkeep "analysis" (by decide)),
    ← Settings.Holdings.ofEntries_eq (hkeep "rules" (by decide)),
    ← Settings.Holdings.ofEntries_eq (hkeep "processing" (by decide)),
    sectionEntries_eq_of_sectionOf hread.analysis, sectionEntries_eq_of_sectionOf hread.rules,
    sectionEntries_eq_of_sectionOf hread.processing]

theorem isSome_ofName?_of_isNameIn (h : isNameIn (Strategy.all.map (·.name)) v = true) :
    ∃ t, v = .text t ∧ (Strategy.ofName? t).isSome = true := by
  cases v with
  | text t =>
      refine ⟨t, rfl, ?_⟩
      rw [isNameIn, Text.isOneOf, List.any_map] at h
      rw [Strategy.ofName?, List.find?_isSome]
      exact List.any_eq_true.1 h
  | _ => cases h

/-- A name that stands for nothing in every section can be set to any
value. -/
theorem checkAssignable_of_not_reserved (h : key ∉ Settings.reservedKeys) :
    Settings.checkAssignable key v = .ok () := by
  simp only [Settings.reservedKeys, List.mem_cons, List.not_mem_nil, or_false, not_or] at h
  simp [Settings.checkAssignable, h]

theorem checkProcessable_of_not_reserved (h : key ∉ Settings.reservedKeys)
    (hstrategy : key = "strategy" → isNameIn (Strategy.all.map (·.name)) v = true) :
    Settings.checkProcessable key v = .ok () := by
  unfold Settings.checkProcessable
  split
  · next t hkey =>
      obtain ⟨_, heq, hsome⟩ := isSome_ofName?_of_isNameIn (hstrategy (eq_of_beq hkey))
      rw [← Value.text.inj heq] at hsome
      rw [if_pos hsome]
  · exact checkAssignable_of_not_reserved h

/-- No key occurs twice in a section. -/
def HasDistinctSections (es : List (String × Value)) : Prop :=
  ∀ name ∈ sectionNames, ((sectionEntries es name).map Prod.fst).Nodup

instance : Decidable (HasDistinctSections es) :=
  inferInstanceAs (Decidable (∀ name ∈ sectionNames, _))

theorem field?_of_mem (h : (es.map Prod.fst).Nodup) (hmem : (key, v) ∈ es) :
    field? key es = some v := by
  induction es with
  | nil => cases hmem
  | cons e es ih =>
      obtain ⟨k, w⟩ := e
      obtain ⟨hk, hes⟩ := List.nodup_cons.1 h
      rcases List.mem_cons.1 hmem with heq | hin
      · cases heq
        exact field?_cons_self
      · have hkey : key ∈ es.map Prod.fst := List.mem_map.2 ⟨(key, v), hin, rfl⟩
        have hne : key ≠ k := fun heq => hk (heq ▸ hkey)
        rw [field?_cons_of_ne hne, ih hes hin]

/-- A configuration that passes the check and has no name that leads to
something in every section can be read. -/
theorem ofValue_eq_settingsOf (h : Passes es) (hplain : isUnreserved es = true)
    (hdistinct : HasDistinctSections es) :
    Settings.ofValue (.map es) = .ok (settingsOf es) := by
  have hfree := isUnreserved_iff.1 hplain
  have hread : Settings.Readable es (sectionEntries es "analysis")
      (sectionEntries es "rules") (sectionEntries es "processing") := {
    analysis := h.sectionOf (by decide)
    rules := h.sectionOf (by decide)
    processing := h.sectionOf (by decide)
    analysisSet := fun e he =>
      checkAssignable_of_not_reserved (hfree "analysis" (by decide) e he)
    rulesSet := fun e he => checkAssignable_of_not_reserved (hfree "rules" (by decide) e he)
    processingSet := fun e he =>
      checkProcessable_of_not_reserved (hfree "processing" (by decide) e he) fun hkey =>
        h.strategy _ (hkey ▸ field?_of_mem (hdistinct "processing" (by decide)) he) }
  obtain ⟨s, hs⟩ : ∃ s, Settings.ofValue (.map es) = .ok s :=
    ⟨_, Settings.ofValue_map_eq_ok.2 ⟨_, _, _, hread, rfl⟩⟩
  rw [hs, eq_settingsOf hs (keepsSections_of_isUnreserved hplain)]

/-- A configuration that has been checked is read from sections that
pass. -/
theorem checked_spec (h : checked v = .ok s) :
    ∃ es, v = .map es ∧ Passes es ∧ s = settingsOf es := by
  unfold checked at h
  split at h
  · cases h
  · next hplain =>
      obtain ⟨⟨⟩, hcheck, h⟩ := bind_eq_ok.1 h
      obtain ⟨es, rfl⟩ := exists_map_of_check hcheck
      rw [Bool.not_eq_true, Bool.not_eq_false'] at hplain
      exact ⟨es, rfl, check_map_eq_ok.1 hcheck,
        eq_settingsOf h (keepsSections_of_isUnreserved hplain)⟩

end Config

end Codemod
