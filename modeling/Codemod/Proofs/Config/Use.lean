/-
Using a configuration that has passed the check.

The check looks at some settings only as far as a use of them asks for,
and at some not at all. So a configuration that passes can be read
(`Config.ofValue_eq_settingsOf`), while an engine can be made of it
(`Config.engine_eq_ok_iff`) and files be found with it
(`Config.finds_iff`) under conditions of their own.

Main statement: `Config.usable_when_checked`.
-/
import Codemod.Files.Discovery
import Codemod.Proofs.Config.Saving
import Codemod.Proofs.Files.Finding

namespace Codemod

theorem mem_firstOccurrences {x : String} {items : List String} :
    x ∈ firstOccurrences items ↔ x ∈ items := by
  have hfold (seen : List String) :
      x ∈ items.foldl (fun seen s => if seen.contains s then seen else seen ++ [s]) seen
        ↔ x ∈ seen ∨ x ∈ items := by
    induction items generalizing seen with
    | nil => simp
    | cons y items ih =>
        rw [List.foldl_cons, ih]
        split
        · next h =>
            rw [List.contains_iff_mem] at h
            rw [List.mem_cons]
            constructor
            · exact fun hx => hx.imp_right Or.inr
            · rintro (hx | rfl | hx)
              · exact Or.inl hx
              · exact Or.inl h
              · exact Or.inr hx
        · simp [or_assoc]
  rw [firstOccurrences, hfold]
  simp

/-- A check of all members fails on one of them. -/
theorem exists_of_forM_error {α : Type} {f : α → Except Fault Unit} {l : List α} {e : Fault}
    (h : l.forM f = .error e) : ∃ a ∈ l, f a = .error e := by
  induction l with
  | nil => cases h
  | cons a l ih =>
      rw [List.forM_eq_forM, List.forM_cons, ← List.forM_eq_forM] at h
      cases hf : f a with
      | error g =>
          rw [hf] at h
          exact ⟨a, List.mem_cons_self, by rw [hf, ← Except.error.inj h]⟩
      | ok u =>
          rw [hf] at h
          obtain ⟨b, hb, hfb⟩ := ih h
          exact ⟨b, List.mem_cons_of_mem a hb, hfb⟩

namespace Registry

variable {r : Registry} {groups : Option (List String)} {disabled wanted : List String}
  {f : Fault} {name : String}

theorem get_eq_error : r.get name = .error f
    ↔ r.find? name = none ∧ f = .unknownRule name := by
  unfold get
  cases r.find? name <;> simp [eq_comm]

/-- Rules can be selected by groups that exist if all that is disabled
exists. -/
theorem exists_select (hdisabled : ∀ name ∈ disabled, (r.find? name).isSome)
    (hgroups : ∀ wanted, groups = some wanted → ∀ g ∈ wanted, g ∈ r.groups) :
    ∃ rules, r.select groups disabled = .ok rules := by
  have hall : (firstOccurrences disabled).forM
      (fun name => (r.get name).map fun _ => ()) = .ok () := by
    refine forM_eq_ok.2 fun name hname => ?_
    have hsome := hdisabled name (mem_firstOccurrences.1 hname)
    obtain ⟨rule, hrule⟩ := Option.isSome_iff_exists.1 hsome
    rw [get, hrule]
    rfl
  unfold select
  rw [hall]
  cases groups with
  | none => exact ⟨_, rfl⟩
  | some wanted =>
      have hnone : (firstOccurrences wanted).filter (fun g => !r.groups.contains g) = [] := by
        refine List.filter_eq_nil_iff.2 fun g hg => ?_
        simp [hgroups wanted rfl g (mem_firstOccurrences.1 hg)]
      simp only [hnone]
      exact ⟨_, rfl⟩

/-- What is disabled and does not exist is reported first. -/
theorem exists_select_error (h : ∃ name ∈ disabled, r.find? name = none) :
    ∃ name ∈ disabled, r.find? name = none
      ∧ r.select groups disabled = .error (.unknownRule name) := by
  unfold select
  cases hall : (firstOccurrences disabled).forM
      (fun name => (r.get name).map fun _ => ()) with
  | error f =>
      obtain ⟨name, hname, hf⟩ := exists_of_forM_error hall
      cases hget : r.get name with
      | ok rule =>
          rw [hget] at hf
          cases hf
      | error g =>
          rw [hget] at hf
          obtain rfl := Except.error.inj hf
          obtain ⟨hfind, rfl⟩ := get_eq_error.1 hget
          exact ⟨name, mem_firstOccurrences.1 hname, hfind, rfl⟩
  | ok u =>
      obtain ⟨name, hname, hfind⟩ := h
      have hget := forM_eq_ok.1 hall name (mem_firstOccurrences.2 hname)
      rw [get, hfind] at hget
      cases hget

end Registry

namespace NameFilter

variable {f : NameFilter} {test : Text → Bool} {vs : List Value} {name : String}

/-- Texts can be compared with every name. -/
theorem exists_anyText (h : ∀ v ∈ vs, ∃ t, v = .text t) :
    ∃ b, anyText test vs = .ok b := by
  induction vs with
  | nil => exact ⟨false, rfl⟩
  | cons v vs ih =>
      obtain ⟨⟨t, rfl⟩, hvs⟩ := List.forall_mem_cons.1 h
      rw [anyText]
      split
      · exact ⟨true, rfl⟩
      · exact ih hvs

/-- Every name can be compared with what is excluded. -/
def CanExclude (f : NameFilter) : Prop := ∀ name, ∃ b, f.excludes name = .ok b

theorem exists_admits (hext : ∀ v ∈ f.extensions, ∃ t, v = .text t) (hex : f.CanExclude) :
    ∃ b, f.admits name = .ok b := by
  obtain ⟨b, hb⟩ : ∃ b, f.hasExtension name = .ok b := exists_anyText hext
  unfold admits
  rw [hb]
  cases b with
  | false => exact ⟨false, rfl⟩
  | true =>
      obtain ⟨c, hc⟩ := hex name
      exact ⟨!c, by rw [hc]; rfl⟩

end NameFilter

section Finding

variable {f : NameFilter} {store : Store} {raw : String}

theorem exists_filterM {α : Type} {p : α → Except Fault Bool} {l : List α}
    (h : ∀ a, ∃ b, p a = .ok b) : ∃ kept, l.filterM p = .ok kept := by
  have haux (acc : List α) : ∃ kept, List.filterAuxM p l acc = .ok kept := by
    induction l generalizing acc with
    | nil => exact ⟨acc, rfl⟩
    | cons a l ih =>
        obtain ⟨b, hb⟩ := h a
        rw [List.filterAuxM, hb]
        exact ih _
  obtain ⟨kept, hkept⟩ := haux []
  exact ⟨kept.reverse, by rw [List.filterM, hkept]; rfl⟩

mutual

theorem exists_filesBelow (hext : ∀ v ∈ f.extensions, ∃ t, v = .text t)
    (hex : f.CanExclude) (e : Entry) : ∃ found, filesBelow f e = .ok found :=
  match e with
  | .file _ => ⟨[], by rw [filesBelow]⟩
  | .folder es => by
      obtain ⟨names, hnames⟩ : ∃ names, (fileNames es).filterM f.admits = .ok names :=
        exists_filterM fun name => NameFilter.exists_admits hext hex
      obtain ⟨folders, hfolders⟩ := exists_foldersBelow hext hex es
      rw [filesBelow, hnames, hfolders]
      exact ⟨_, rfl⟩

theorem exists_foldersBelow (hext : ∀ v ∈ f.extensions, ∃ t, v = .text t)
    (hex : f.CanExclude) (es : List (String × Entry)) :
    ∃ found, foldersBelow f es = .ok found :=
  match es with
  | [] => ⟨[], by rw [foldersBelow]⟩
  | (name, .file _) :: es => by
      rw [foldersBelow]
      exact exists_foldersBelow hext hex es
  | (name, .folder inner) :: es => by
      obtain ⟨b, hb⟩ := hex name
      obtain ⟨found, hfound⟩ := exists_filesBelow hext hex (.folder inner)
      obtain ⟨more, hmore⟩ := exists_foldersBelow hext hex es
      rw [foldersBelow, hb]
      cases b with
      | true => exact ⟨more, hmore⟩
      | false =>
          simp only [hfound, hmore]
          exact ⟨_, rfl⟩

end

theorem exists_candidates (hext : ∀ v ∈ f.extensions, ∃ t, v = .text t)
    (hex : f.CanExclude) (hraw : store.Leads raw) :
    ∃ found, candidates store f raw = .ok found := by
  obtain ⟨l, e, hl, he⟩ := hraw
  unfold candidates
  simp only [hl, he]
  cases e with
  | file b => exact ⟨_, rfl⟩
  | folder es =>
      obtain ⟨found, hfound⟩ := exists_filesBelow hext hex (.folder es)
      simp only [hfound]
      exact ⟨_, rfl⟩

theorem exists_foldlM {α β : Type} {step : β → α → Except Fault β} {l : List α} {start : β}
    (h : ∀ a ∈ l, ∀ b, ∃ c, step b a = .ok c) : ∃ c, l.foldlM step start = .ok c := by
  induction l generalizing start with
  | nil => exact ⟨start, rfl⟩
  | cons a l ih =>
      obtain ⟨c, hc⟩ := h a List.mem_cons_self start
      rw [List.foldlM_cons, hc]
      exact ih fun b hb => h b (List.mem_cons_of_mem a hb)

/-- A folder with one folder in it. -/
def nested (name : String) : Store := ⟨[("d", .folder [(name, .folder [])])]⟩

theorem leads_nested (name : String) : (nested name).Leads "d" := by
  have hpath : (Path.ofString "d").toString = "d" := by cbv
  have hname : ("d".isEmpty || "d".startsWith "/") = false := by cbv
  have hsplit : Path.split "d" = ["d"] := by cbv
  refine ⟨["d"], .folder [(name, .folder [])], ?_, rfl⟩
  rw [hpath, Store.locate, hname, hsplit]
  rfl

/-- Whether a folder is passed over is asked for its name. -/
theorem exists_excludes_of_candidates {name : String} {found : List Found}
    (h : candidates (nested name) f "d" = .ok found) : ∃ b, f.excludes name = .ok b := by
  have hfolder : candidates (nested name) f "d"
      = (filesBelow f (.folder [(name, .folder [])])).map fun found =>
        found.map fun names =>
          ⟨((Path.ofString "d").within names).toString, ["d"] ++ names⟩ := by
    have hpath : (Path.ofString "d").toString = "d" := by cbv
    have hname : ("d".isEmpty || "d".startsWith "/") = false := by cbv
    have hsplit : Path.split "d" = ["d"] := by cbv
    have hlocate : (nested name).locate "d" = .ok ["d"] := by
      rw [Store.locate, hname, hsplit]
      rfl
    unfold candidates
    simp only [hpath, hlocate]
    rfl
  cases hex : f.excludes name with
  | ok b => exact ⟨b, rfl⟩
  | error e =>
      have hnone : (fileNames [(name, .folder [])]).filterM f.admits = .ok [] := rfl
      rw [hfolder, filesBelow, hnone, foldersBelow, hex] at h
      cases h

end Finding

namespace Config

open Value

variable {es fs : List (String × Value)} {s : Settings} {v : Value} {vs : List Value}
  {f : Fault} {name key : String}

-- ============================================================== the values

theorem parts_of_isListOf {test : Value → Bool} (h : isListOf test v = true) :
    ∃ vs, v = .list vs ∧ ∀ u ∈ vs, test u = true := by
  cases v with
  | list vs => exact ⟨vs, rfl, List.all_eq_true.1 h⟩
  | _ => cases h

theorem isSimple_of_isWord (h : isWord v = true) : v.isSimple = true := by
  cases v with
  | text t => rfl
  | _ => cases h

/-- A list of words can be used as a set. -/
theorem elements_of_isWordList (h : isWordList v = true) (hv : v ≠ .null) :
    ∃ vs, Settings.elements v = .ok vs := by
  cases v with
  | null => exact absurd rfl hv
  | list vs =>
      have hall : vs.all isSimple = true := List.all_eq_true.2 fun u hu =>
        isSimple_of_isWord (List.all_eq_true.1 h u hu)
      exact ⟨vs, by rw [Settings.elements, parts?]; exact if_pos hall⟩
  | _ => cases h

-- =============================================================== engines

/-- The items of the list of disabled rules. -/
def disabledItems (es : List (String × Value)) : List Value :=
  ((setIn es "rules" "disabled_rules").bind parts?).getD []

/-- Some disabled rule does not exist. -/
def DisablesUnknown (es : List (String × Value)) : Prop :=
  ∃ v ∈ disabledItems es, Registry.builtin.find? v.spoken.display = none

theorem disabledRules_settingsOf (h : Passes es) :
    (settingsOf es).rules.disabledRules = some (.list (disabledItems es)) := by
  have hown : (settingsOf es).rules.disabledRules
      = (setIn es "rules" "disabled_rules").or (some (.list [])) := rfl
  rw [hown, disabledItems]
  cases hset : setIn es "rules" "disabled_rules" with
  | none => rfl
  | some v =>
      obtain ⟨vs, rfl, -⟩ := parts_of_isListOf (h.disabledRules v hset)
      rfl

/-- The groups that are enabled are groups of the library. -/
theorem exists_enabledGroups (h : Passes es) :
    ∃ ts : List Text, (settingsOf es).rules.enabledGroups = some (.list (ts.map .text))
      ∧ ∀ t ∈ ts, t.display ∈ Registry.builtin.groups := by
  have hgroups : Registry.builtin.groups = groupNames := by decide
  have hown : (settingsOf es).rules.enabledGroups
      = (setIn es "rules" "enabled_groups").or (some (.ofStrings groupNames)) := rfl
  have hdisplay : ∀ name ∈ groupNames, (Text.ofString name).display = name := by
    decide
  rw [hown, hgroups]
  cases hset : setIn es "rules" "enabled_groups" with
  | none =>
      refine ⟨groupNames.map Text.ofString, by rw [List.map_map]; rfl, fun t ht => ?_⟩
      obtain ⟨name, hname, rfl⟩ := List.mem_map.1 ht
      rwa [hdisplay name hname]
  | some v =>
      obtain ⟨vs, rfl, hvs⟩ := parts_of_isListOf (h.groups v hset)
      clear hset
      induction vs with
      | nil => exact ⟨[], rfl, by simp⟩
      | cons v vs ih =>
          obtain ⟨hv, hrest⟩ := List.forall_mem_cons.1 hvs
          obtain ⟨ts, hts, hall⟩ := ih hrest
          cases v with
          | text t =>
              obtain ⟨name, hname, ht⟩ := List.any_eq_true.1 hv
              rw [← eq_of_beq ht] at *
              refine ⟨Text.ofString name :: ts, ?_, List.forall_mem_cons.2 ⟨?_, hall⟩⟩
              · rw [List.map_cons, ← Value.list.inj (Option.some.inj hts)]
                rfl
              · rwa [hdisplay name hname]
          | _ => cases hv

theorem mapM_text? (ts : List Text) : (ts.map Value.text).mapM text? = some ts := by
  induction ts with
  | nil => rfl
  | cons t ts ih =>
      rw [List.map_cons, List.mapM_cons, ih]
      rfl

theorem elements_list : Settings.elements (.list vs)
    = if vs.all isSimple then .ok vs else .error .unusableSetting := rfl

/-- What enabling rules comes down to. -/
theorem exists_enabledRules_eq (h : Passes es) (hsimple : ∀ v ∈ disabledItems es, v.isSimple) :
    ∃ wanted, (∀ g ∈ wanted, g ∈ Registry.builtin.groups)
      ∧ (settingsOf es).enabledRules = (do
        let names := (disabledItems es).map fun v => v.spoken.display
        let _ ← Registry.builtin.select none names
        Registry.builtin.select (some wanted) names) := by
  obtain ⟨ts, hgroups, hts⟩ := exists_enabledGroups h
  refine ⟨ts.map Text.display, by simpa using hts, ?_⟩
  have hall : (ts.map Value.text).all isSimple = true := by simp [isSimple]
  unfold Settings.enabledRules
  rw [hgroups, disabledRules_settingsOf h]
  simp only [Settings.held, elements_list, List.all_eq_true.2 hsimple, if_true, bind,
    Except.bind, hall, mapM_text?]

theorem exists_enabledRules (h : Passes es) (hsimple : ∀ v ∈ disabledItems es, v.isSimple)
    (hknown : ¬ DisablesUnknown es) : ∃ rules, (settingsOf es).enabledRules = .ok rules := by
  obtain ⟨wanted, hwanted, heq⟩ := exists_enabledRules_eq h hsimple
  generalize hnames : (disabledItems es).map (fun v => v.spoken.display) = names at heq
  have hfind : ∀ name ∈ names, (Registry.builtin.find? name).isSome := by
    subst hnames
    intro name hname
    obtain ⟨v, hv, rfl⟩ := List.mem_map.1 hname
    cases hf : Registry.builtin.find? v.spoken.display with
    | none => exact absurd ⟨v, hv, hf⟩ hknown
    | some rule => rfl
  obtain ⟨all, hall⟩ : ∃ all, Registry.builtin.select none names = .ok all :=
    Registry.exists_select hfind fun _ h => nomatch h
  obtain ⟨rules, hrules⟩ : ∃ rules, Registry.builtin.select (some wanted) names = .ok rules :=
    Registry.exists_select hfind fun _ h => Option.some.inj h ▸ hwanted
  exact ⟨rules, by rw [heq]; simp only [hall]; exact hrules⟩

theorem enabledRules_of_unknown (h : Passes es)
    (hsimple : ∀ v ∈ disabledItems es, v.isSimple) (hunknown : DisablesUnknown es) :
    ∃ v ∈ disabledItems es, Registry.builtin.find? v.spoken.display = none
      ∧ (settingsOf es).enabledRules = .error (.unknownRule v.spoken.display) := by
  obtain ⟨wanted, -, heq⟩ := exists_enabledRules_eq h hsimple
  have hexists : ∃ name ∈ (disabledItems es).map (fun v => v.spoken.display),
      Registry.builtin.find? name = none := by
    obtain ⟨v, hv, hfind⟩ := hunknown
    exact ⟨_, List.mem_map_of_mem hv, hfind⟩
  obtain ⟨name, hname, hfind, hselect⟩ :
      ∃ name ∈ (disabledItems es).map (fun v => v.spoken.display),
        Registry.builtin.find? name = none
          ∧ Registry.builtin.select none ((disabledItems es).map fun v => v.spoken.display)
            = .error (.unknownRule name) := Registry.exists_select_error hexists
  obtain ⟨v, hv, rfl⟩ := List.mem_map.1 hname
  exact ⟨v, hv, hfind, by rw [heq]; simp only [hselect]; rfl⟩

theorem enabledRules_of_not_simple (h : Passes es)
    (hsimple : ¬ ∀ v ∈ disabledItems es, v.isSimple) :
    (settingsOf es).enabledRules = .error .unusableSetting := by
  obtain ⟨ts, hgroups, -⟩ := exists_enabledGroups h
  unfold Settings.enabledRules
  rw [hgroups, disabledRules_settingsOf h]
  simp only [Settings.held, elements_list, bind, Except.bind]
  rw [if_neg (by simpa using hsimple)]

/-- The members are those in common and the further ones. -/
theorem Settings.exists_members_eq {s : Settings} (hhides : s.analysis.hidesMembers = false)
    (hbase : s.analysis.transformableMembers = .null
      ∨ ∃ base, Settings.elements s.analysis.transformableMembers = .ok base) :
    ∃ base, s.members = (do
      let further ← Settings.elements (← Settings.held s.analysis.extraTransformableMembers)
      return base ++ further) := by
  unfold Settings.members
  rw [hhides]
  rcases hbase with hnull | ⟨base, hbase⟩
  · rw [hnull]
    exact ⟨_, rfl⟩
  · cases ht : s.analysis.transformableMembers with
    | null => exact ⟨_, rfl⟩
    | _ =>
        rw [ht] at hbase
        simp only [hbase]
        exact ⟨base, rfl⟩

/-- What the rules are told can be had unless nothing is set as the
further members. -/
theorem context_settingsOf (h : Passes es)
    (hmembers : setIn es "analysis" Settings.membersKey = none) :
    (setIn es "analysis" "extra_transformable_members" ≠ some .null →
      ∃ c, (settingsOf es).context = .ok c)
    ∧ (setIn es "analysis" "extra_transformable_members" = some .null →
      (settingsOf es).context = .error .unusableSetting) := by
  have hword {key : String} (hkey : key ∈ ["factory_names", "transformable_members",
      "extra_transformable_members"]) {v : Value} (hv : setIn es "analysis" key = some v)
      (hnull : v ≠ .null) : ∃ vs, Settings.elements v = .ok vs :=
    elements_of_isWordList (h.words key hkey v hv) hnull
  have hnames : ∃ v vs, (settingsOf es).analysis.factoryNames = some v
      ∧ Settings.elements v = .ok vs := by
    have hown : (settingsOf es).analysis.factoryNames
        = (setIn es "analysis" "factory_names").or (some (.ofStrings ["$", "jQuery"])) := rfl
    rw [hown]
    cases hset : setIn es "analysis" "factory_names" with
    | none => exact ⟨_, _, rfl, rfl⟩
    | some v =>
        have htruthy := h.factoryNames v hset
        obtain ⟨vs, hvs⟩ := hword (by decide) hset (by rintro rfl; cases htruthy)
        exact ⟨v, vs, rfl, hvs⟩
  have hhides : (settingsOf es).analysis.hidesMembers = false := by
    have hset : (settingsOf es).analysis.hidesMembers
        = ((setIn es "analysis" Settings.membersKey).or none).isSome := rfl
    rw [hset, hmembers]
    rfl
  have hbase : (settingsOf es).analysis.transformableMembers = .null
      ∨ ∃ base, Settings.elements (settingsOf es).analysis.transformableMembers = .ok base := by
    have hshared : (settingsOf es).analysis.transformableMembers
        = (setIn es "analysis" "transformable_members").getD .null :=
      Settings.Holdings.shared_eq
    rw [hshared]
    cases hset : setIn es "analysis" "transformable_members" with
    | none => exact Or.inl rfl
    | some v =>
        by_cases hv : v = .null
        · exact Or.inl hv
        · exact Or.inr (hword (by decide) hset hv)
  have hextra : (settingsOf es).analysis.extraTransformableMembers
      = (setIn es "analysis" "extra_transformable_members").or (some (.list [])) := rfl
  obtain ⟨v, names, hv, hnames⟩ := hnames
  obtain ⟨base, hmembers⟩ := Settings.exists_members_eq hhides hbase
  unfold Settings.context
  rw [hv, hmembers, hextra]
  constructor
  · intro hne
    obtain ⟨w, more, hw, hmore⟩ : ∃ w more,
        (setIn es "analysis" "extra_transformable_members").or (some (.list [])) = some w
          ∧ Settings.elements w = .ok more := by
      cases hset : setIn es "analysis" "extra_transformable_members" with
      | none => exact ⟨_, _, rfl, rfl⟩
      | some w =>
          obtain ⟨more, hmore⟩ := hword (by decide) hset (fun hw => hne (by rw [hset, hw]))
          exact ⟨w, more, rfl, hmore⟩
    rw [hw]
    simp only [Settings.held, hnames, hmore, bind, Except.bind, pure, Except.pure]
    exact ⟨_, rfl⟩
  · intro hnull
    rw [hnull]
    simp only [Settings.held, hnames, bind, Except.bind, Option.some_or]
    rfl

theorem exists_maxPasses (h : Passes es) :
    ∃ n, 0 < n ∧ (settingsOf es).rules.maxPasses.int? = some n
      ∧ (settingsOf es).rules.maxPasses.floor? = some n := by
  have hshared : (settingsOf es).rules.maxPasses
      = (setIn es "rules" "max_passes").getD (.int Engine.defaultMaxPasses) :=
    Settings.Holdings.shared_eq
  rw [hshared]
  cases hset : setIn es "rules" "max_passes" with
  | none => exact ⟨_, by decide, rfl, rfl⟩
  | some v =>
      have hpos := h.maxPasses v hset
      rw [isPositive, Option.any_eq_true] at hpos
      obtain ⟨n, hn, hpos⟩ := hpos
      refine ⟨n, by simpa using hpos, hn, ?_⟩
      cases v with
      | int m => exact hn
      | bool b => exact hn
      | _ => cases hn

/-- An engine is made of the rules and of what they are told. -/
theorem exists_engine_eq (h : Passes es) :
    ∃ n, 0 < n ∧ (settingsOf es).engine = (do
      let rules ← (settingsOf es).enabledRules
      let context ← (settingsOf es).context
      Engine.make rules context n) := by
  obtain ⟨n, hpos, hint, hfloor⟩ := exists_maxPasses h
  refine ⟨n, hpos, ?_⟩
  unfold Settings.engine Settings.selection
  have hsign : (n < 0 || (some n).any (· ≤ 0)) = false := by
    simp only [Option.any_some, Bool.or_eq_false_iff, decide_eq_false_iff_not]
    omega
  rw [hint, hfloor]
  cases (settingsOf es).enabledRules with
  | error f => rfl
  | ok rules =>
      cases (settingsOf es).context with
      | error f => rfl
      | ok c =>
          simp only [bind, Except.bind, hsign, Bool.false_eq_true, if_false, pure, Except.pure]

/-- The rule that is reported is disabled and does not exist. -/
def ReportsUnknown (es : List (String × Value)) (f : Fault) : Prop :=
  ∃ v ∈ disabledItems es, Registry.builtin.find? v.spoken.display = none
    ∧ f = .unknownRule v.spoken.display

/-- An engine can be made but for disabled rules that do not exist, if
what is disabled can be looked up and there is a list of further
members. -/
theorem engine_fails_only_iff (h : Passes es)
    (hmembers : setIn es "analysis" Settings.membersKey = none) :
    (∀ f, (settingsOf es).engine = .error f → ReportsUnknown es f)
      ↔ (∀ v ∈ disabledItems es, v.isSimple)
        ∧ (DisablesUnknown es
          ∨ setIn es "analysis" "extra_transformable_members" ≠ some .null) := by
  obtain ⟨n, hpos, heq⟩ := exists_engine_eq h
  obtain ⟨hcontext, hnull⟩ := context_settingsOf h hmembers
  have hnever : ¬ ReportsUnknown es .unusableSetting := fun ⟨_, _, _, hf⟩ => nomatch hf
  rw [heq]
  by_cases hsimple : ∀ v ∈ disabledItems es, v.isSimple
  · by_cases hunknown : DisablesUnknown es
    · obtain ⟨v, hv, hfind, hrules⟩ := enabledRules_of_unknown h hsimple hunknown
      rw [hrules]
      refine ⟨fun _ => ⟨hsimple, Or.inl hunknown⟩, fun _ f hf => ⟨v, hv, hfind, ?_⟩⟩
      exact (Except.error.inj hf).symm
    · obtain ⟨rules, hrules⟩ := exists_enabledRules h hsimple hunknown
      rw [hrules]
      by_cases hextra : setIn es "analysis" "extra_transformable_members" = some .null
      · rw [hnull hextra]
        refine ⟨fun hf => absurd (hf _ rfl) hnever, ?_⟩
        rintro ⟨-, hdis | hne⟩
        · exact absurd hdis hunknown
        · exact absurd hextra hne
      · obtain ⟨c, hc⟩ := hcontext hextra
        rw [hc]
        refine ⟨fun _ => ⟨hsimple, Or.inr hextra⟩, fun _ f hf => ?_⟩
        change Engine.make rules c n = .error f at hf
        rw [Engine.make, if_neg (by omega)] at hf
        cases hf
  · rw [enabledRules_of_not_simple h hsimple]
    exact ⟨fun hf => absurd (hf _ rfl) hnever, fun hand => absurd hand.1 hsimple⟩

-- ============================================================= finding

/-- What is excluded. -/
def excludedOf (es : List (String × Value)) : NameFilter :=
  ⟨[], (settingsOf es).processing.excludedPatterns⟩

/-- The extensions are texts. -/
theorem exists_filter (h : Passes es) :
    ∃ vs, NameFilter.ofSettings (settingsOf es) = .ok ⟨vs, (excludedOf es).excluded⟩
      ∧ ∀ v ∈ vs, ∃ t, v = .text t := by
  have hown : (settingsOf es).processing.extensions
      = (setIn es "processing" "extensions").or
        (some (.ofStrings [".js", ".mjs", ".cjs", ".jsx"])) := rfl
  unfold NameFilter.ofSettings
  rw [hown]
  cases hset : setIn es "processing" "extensions" with
  | none =>
      refine ⟨_, rfl, fun v hv => ?_⟩
      obtain ⟨s, -, rfl⟩ := List.mem_map.1 hv
      exact ⟨_, rfl⟩
  | some v =>
      obtain ⟨vs, rfl, hvs⟩ := parts_of_isListOf (h.extensions v hset)
      refine ⟨vs, rfl, fun v hv => ?_⟩
      have hv := hvs v hv
      cases v with
      | text t => exact ⟨t, rfl⟩
      | _ => cases hv

/-- Files are found wherever paths lead if every name can be compared
with what is excluded, and only then. -/
theorem finds_iff (h : Passes es) :
    (∀ (store : Store) paths, (∀ raw ∈ paths, store.Leads raw) →
        ∃ found, findFiles store (settingsOf es) paths = .ok found)
      ↔ (excludedOf es).CanExclude := by
  obtain ⟨vs, hfilter, hvs⟩ := exists_filter h
  have hfind (store : Store) (paths : List String) :
      findFiles store (settingsOf es) paths
        = paths.foldlM (fun known raw => (candidates store ⟨vs, (excludedOf es).excluded⟩
            raw).map (addFound known)) [] := by
    unfold findFiles
    rw [hfilter]
  constructor
  · intro hall name
    obtain ⟨found, hfound⟩ := hall (nested name) ["d"] (by simpa using leads_nested name)
    rw [hfind, List.foldlM_cons] at hfound
    obtain ⟨_, hcandidates, -⟩ := bind_eq_ok.1 hfound
    cases hc : candidates (nested name) ⟨vs, (excludedOf es).excluded⟩ "d" with
    | error f =>
        rw [hc] at hcandidates
        cases hcandidates
    | ok more =>
        have hexcludes : ∃ b, (NameFilter.mk vs (excludedOf es).excluded).excludes name = .ok b :=
          exists_excludes_of_candidates hc
        exact hexcludes
  · intro hex store paths hpaths
    rw [hfind]
    refine exists_foldlM fun raw hraw known => ?_
    obtain ⟨found, hfound⟩ := exists_candidates (f := ⟨vs, (excludedOf es).excluded⟩) hvs hex
      (hpaths raw hraw)
    exact ⟨_, by rw [hfound]; rfl⟩

-- ======================================================= declared settings

/-- The settings of a section. -/
def declared (name : String) : List String :=
  if name == "analysis" then
    ["factory_names", "transformable_members", "extra_transformable_members"]
  else if name == "rules" then ["enabled_groups", "disabled_rules", "max_passes"]
  else ["extensions", "excluded_patterns", "max_file_size", "jobs", "strategy"]

/-- Two configurations set the same. -/
def Agree (es fs : List (String × Value)) : Prop :=
  ∀ name ∈ sectionNames, ∀ key ∈ declared name, setIn es name key = setIn fs name key

/-- No name is set that leads to something other than a setting. -/
structure IsPlain (es : List (String × Value)) : Prop where
  unreserved : isUnreserved es = true
  members : setIn es "analysis" Settings.membersKey = none

/-- What is set under other names makes no difference. -/
theorem settingsOf_eq_of_agree (hes : IsPlain es) (hfs : IsPlain fs) (h : Agree es fs) :
    settingsOf es = settingsOf fs := by
  have hset {name key : String} (hname : name ∈ sectionNames) (hkey : key ∈ declared name) :
      field? key (sectionEntries es name) = field? key (sectionEntries fs name) :=
    h name hname key hkey
  have hlisting {name : String} (hname : name ∈ sectionNames) :
      field? Settings.listingKey (sectionEntries es name)
        = field? Settings.listingKey (sectionEntries fs name) :=
    (setIn_listingKey hes.unreserved hname).trans (setIn_listingKey hfs.unreserved hname).symm
  have hmembers : field? Settings.membersKey (sectionEntries es "analysis")
      = field? Settings.membersKey (sectionEntries fs "analysis") :=
    hes.members.trans hfs.members.symm
  have hanalysis : "analysis" ∈ sectionNames := by decide
  have hrules : "rules" ∈ sectionNames := by decide
  have hprocessing : "processing" ∈ sectionNames := by decide
  simp only [settingsOf, Settings.ofHoldings, Settings.Holdings.own?_eq,
    Settings.Holdings.shared_eq, Settings.Holdings.set?_eq, Settings.Holdings.strategy,
    hlisting hanalysis, hlisting hrules, hlisting hprocessing, hmembers,
    hset hanalysis (show "factory_names" ∈ declared "analysis" by decide),
    hset hanalysis (show "transformable_members" ∈ declared "analysis" by decide),
    hset hanalysis (show "extra_transformable_members" ∈ declared "analysis" by decide),
    hset hrules (show "enabled_groups" ∈ declared "rules" by decide),
    hset hrules (show "disabled_rules" ∈ declared "rules" by decide),
    hset hrules (show "max_passes" ∈ declared "rules" by decide),
    hset hprocessing (show "extensions" ∈ declared "processing" by decide),
    hset hprocessing (show "excluded_patterns" ∈ declared "processing" by decide),
    hset hprocessing (show "max_file_size" ∈ declared "processing" by decide),
    hset hprocessing (show "jobs" ∈ declared "processing" by decide),
    hset hprocessing (show "strategy" ∈ declared "processing" by decide)]

/-- A configuration that passes the check can be read, and only declared
settings count; an engine can be made of it and files be found with it
under conditions that the check does not ask for. -/
theorem usable_when_checked (hd : IsDictionary es) (hcheck : check (.map es) = .ok ())
    (hplain : IsPlain es) :
    ∃ s, Settings.ofValue (.map es) = .ok s
      ∧ (∀ fs, IsDictionary fs → check (.map fs) = .ok () → IsPlain fs → Agree es fs →
        Settings.ofValue (.map fs) = .ok s)
      ∧ ((∀ f, s.engine = .error f → ReportsUnknown es f)
        ↔ (∀ v ∈ disabledItems es, v.isSimple)
          ∧ (DisablesUnknown es
            ∨ setIn es "analysis" "extra_transformable_members" ≠ some .null))
      ∧ ((∀ (store : Store) paths, (∀ raw ∈ paths, store.Leads raw) →
          ∃ found, findFiles store s paths = .ok found)
        ↔ (excludedOf es).CanExclude) := by
  have hpass := check_map_eq_ok.1 hcheck
  refine ⟨settingsOf es, ofValue_eq_settingsOf hpass hplain.unreserved hd.sections,
    fun fs hfd hfcheck hfplain hagree => ?_, engine_fails_only_iff hpass hplain.members,
    finds_iff hpass⟩
  rw [settingsOf_eq_of_agree hplain hfplain hagree]
  exact ofValue_eq_settingsOf (check_map_eq_ok.1 hfcheck) hfplain.unreserved hfd.sections

/-- Every name can be compared with the patterns that are built in. -/
theorem canExclude_of_texts (h : (excludedOf es).excluded = some (.list vs))
    (hvs : ∀ v ∈ vs, ∃ t, v = .text t) : (excludedOf es).CanExclude := by
  intro name
  unfold NameFilter.excludes
  rw [h]
  exact NameFilter.exists_anyText hvs

theorem usable_with_other_keys :
    ∃ s, Settings.ofValue (.map [("colour", .null),
        ("rules", .map [("debug", .list [.list []]), ("max_passes", .int 3)])]) = .ok s
      ∧ Settings.ofValue (.map [("rules", .map [("max_passes", .int 3)])]) = .ok s
      ∧ (∀ f, s.engine ≠ .error f)
      ∧ ∀ (store : Store) paths, (∀ raw ∈ paths, store.Leads raw) →
        ∃ found, findFiles store s paths = .ok found := by
  have hsame : Agree
      [("colour", .null), ("rules", .map [("debug", .list [.list []]), ("max_passes", .int 3)])]
      [("rules", .map [("max_passes", .int 3)])] := by
    intro name hname key hkey
    simp only [sectionNames, List.mem_cons, List.not_mem_nil, or_false] at hname
    rcases hname with rfl | rfl | rfl
    · rfl
    · change key ∈ ["enabled_groups", "disabled_rules", "max_passes"] at hkey
      simp only [List.mem_cons, List.not_mem_nil, or_false] at hkey
      rcases hkey with rfl | rfl | rfl <;> rfl
    · rfl
  have hd : IsDictionary
      [("colour", .null), ("rules", .map [("debug", .list [.list []]), ("max_passes", .int 3)])] :=
    ⟨by simp [Distinct], by decide⟩
  obtain ⟨s, hs, hagree, hengine, hfind⟩ := usable_when_checked hd rfl ⟨rfl, rfl⟩
  refine ⟨s, hs, hagree _ ⟨by simp [Distinct], by decide⟩ rfl ⟨rfl, rfl⟩ hsame,
    fun f hf => ?_, hfind.2 (canExclude_of_texts rfl ?_)⟩
  · have hsimple : ∀ v ∈ disabledItems [("colour", .null), ("rules",
        .map [("debug", .list [.list []]), ("max_passes", .int 3)])], v.isSimple :=
      List.forall_mem_nil _
    have hextra : setIn [("colour", .null), ("rules",
        .map [("debug", .list [.list []]), ("max_passes", .int 3)])] "analysis"
        "extra_transformable_members" ≠ some .null := by rintro ⟨⟩
    obtain ⟨v, hv, -⟩ := hengine.2 ⟨hsimple, Or.inr hextra⟩ f hf
    cases hv
  · intro v hv
    obtain ⟨t, -, rfl⟩ := List.mem_map.1 hv
    exact ⟨_, rfl⟩

/-- Nothing is set as the further members, which passes the check, and no
engine can be made. -/
theorem no_engine_without_members :
    ∃ es s, check (.map es) = .ok () ∧ Settings.ofValue (.map es) = .ok s
      ∧ s.engine = .error .unusableSetting :=
  ⟨[("analysis", .map [("extra_transformable_members", .null)])], _, rfl, rfl, rfl⟩

end Config

end Codemod
