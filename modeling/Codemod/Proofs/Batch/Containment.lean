/-
Failures of single files.

What can be expected to go wrong with a file is recorded in its result;
the other faults end its processing (`Escapes`). They come out of
literals that no text can hold: a rule meets one, a rewritten text can
neither be parsed again nor written.

A file is written only after its text has been transformed, but it is
emptied before the new text is encoded. Main statement:
`processFile_contained_iff`. With checked settings every file gets a
result, and the store stays as it is unless the file has been changed and
written, exactly if no fault escapes. Where one does, the file has been
left alone or emptied (`processFile_of_escapes`).
-/
import Mathlib
import Codemod.Batch.Run
import Codemod.Proofs.Config.Section
import Codemod.Proofs.Files.Writing

namespace Codemod

-- ================================================================ settings

namespace Config

variable {v : Value} {s : Settings}

/-- A whole number has a bound. -/
theorem exists_floor?_of_isPositive (h : isPositive v = true) :
    ∃ n, v.floor? = some n := by
  cases v with
  | int n => exact ⟨n, rfl⟩
  | bool b => exact ⟨_, rfl⟩
  | null => cases h
  | other t => cases h
  | text t => cases h
  | list vs => cases h
  | map es => cases h

/-- The size of files is limited in a checked configuration. -/
theorem exists_floor?_maxFileSize (h : checked v = .ok s) :
    ∃ n, s.processing.maxFileSize.floor? = some n := by
  obtain ⟨es, rfl, hpass, rfl⟩ := checked_spec h
  simp only [settingsOf, Settings.ofHoldings, Settings.Holdings.shared_eq]
  cases hf : Value.field? "max_file_size" (sectionEntries es "processing") with
  | none => exact ⟨_, rfl⟩
  | some size => exact exists_floor?_of_isPositive (hpass.maxFileSize size hf)

end Config

namespace Batch

variable {store : Store} {mode : Mode} {s : Settings} {path : String}
  {content : Bytes} {t : Text} {r : TransformResult} {f : Fault}

-- ================================================================= writing

/-- Writing over a file that is there either succeeds or, for a text
without bytes, leaves it empty. -/
theorem writeText_of_readBytes (h : store.readBytes path = .ok content) (t : Text) :
    ∃ after, match t.toChars? with
      | some cs => writeText store path t = (after, .ok ())
          ∧ after.readBytes path = .ok (Utf8.encode cs)
      | none => writeText store path t = (after, .error (.unencodable .utf8 t))
          ∧ after.readBytes path = .ok [] := by
  obtain ⟨emptied, hempty, hread⟩ := Store.writeBytes_of_readBytes h []
  unfold writeText
  rw [hempty]
  cases t.toChars? with
  | none => exact ⟨emptied, rfl, hread⟩
  | some cs =>
      obtain ⟨written, hwrite, hread⟩ :=
        Store.writeBytes_of_readBytes hread (Utf8.encode cs)
      exact ⟨written, by simp only [hwrite], hread⟩

-- ============================================================== processing

/-- A fault ends the processing of a file instead of being recorded. -/
inductive Escapes (store : Store) (mode : Mode) (s : Settings) (path : String) :
    Fault → Prop where
  /-- The text of the file cannot be transformed. -/
  | transform {cs : List Char} {f : Fault}
      (hsource : source store s path = .ok (some cs))
      (ht : s.transform (Text.ofChars cs) = .error f)
      (hf : f.isContained = false) : Escapes store mode s path f
  /-- The text that the file is to hold has no bytes. -/
  | write {cs : List Char} {r : TransformResult}
      (hsource : source store s path = .ok (some cs))
      (ht : s.transform (Text.ofChars cs) = .ok r)
      (hmodified : r.modified = true) (hmode : mode = .write)
      (hcode : r.code.toChars? = none) :
      Escapes store mode s path (.unencodable .utf8 r.code)

theorem eq_error_of_map {α β : Type} {x : Except Fault α} {g : α → β}
    (h : x.map g = .error f) : x = .error f := by
  cases x with
  | error e => rw [Except.error.inj h]
  | ok a => cases h

/-- Bytes that are no text are reported as such. -/
theorem isContained_of_decodeFrom {position : Nat} {p : Option Utf8.Unfinished}
    {bs : Bytes} (h : Utf8.decodeFrom position p bs = .error f) :
    f.isContained = true := by
  fun_induction Utf8.decodeFrom position p bs with
  | case1 => cases h
  | case2 => rw [← Except.error.inj h]; rfl
  | case3 position b bs n hn ih => exact ih (eq_error_of_map h)
  | case4 position b bs n hn p hp ih => exact ih h
  | case5 => rw [← Except.error.inj h]; rfl
  | case6 position p b bs n hn bits hmore ih => exact ih (eq_error_of_map h)
  | case7 position p b bs n hn bits more hmore ih => exact ih h
  | case8 => rw [← Except.error.inj h]; rfl

/-- The text of a file is read, or a contained fault says why not. -/
theorem source_cases (store : Store) (path : String) {v : Value}
    (hs : Config.checked v = .ok s) :
    (∃ f, source store s path = .error f ∧ f.isContained = true)
      ∨ source store s path = .ok none
      ∨ ∃ cs, source store s path = .ok (some cs) := by
  obtain ⟨limit, hlimit⟩ := Config.exists_floor?_maxFileSize hs
  unfold source
  cases hread : store.readBytes path with
  | error g => exact Or.inl ⟨.file g path, rfl, rfl⟩
  | ok content =>
      have hsize : isTooLarge s content = .ok (decide (limit < content.length)) := by
        rw [isTooLarge, hlimit]
      simp only [Except.mapError, bind, Except.bind, pure, Except.pure, hsize]
      cases decide (limit < (content.length : Int)) with
      | true => exact Or.inr (Or.inl rfl)
      | false =>
          simp only [Bool.false_eq_true, if_false]
          cases hd : Utf8.decode content with
          | error f =>
              refine Or.inl ⟨f, by rw [Utf8.read, hd]; rfl, ?_⟩
              exact isContained_of_decodeFrom hd
          | ok cs =>
              exact Or.inr (Or.inr ⟨Utf8.unifyLines cs,
                by rw [Utf8.read, hd]; rfl⟩)

theorem source_of_readBytes {cs : List Char} (h : store.readBytes path = .ok content)
    (hsize : isTooLarge s content = .ok false) (hread : Utf8.read content = .ok cs) :
    source store s path = .ok (some cs) := by
  rw [source, h]
  simp only [Except.mapError, bind, Except.bind, hsize, hread]
  rfl

theorem exists_readBytes_of_source {text : Option (List Char)}
    (h : source store s path = .ok text) :
    ∃ content, store.readBytes path = .ok content := by
  obtain ⟨content, hread, -⟩ := bind_eq_ok.1 h
  cases hr : store.readBytes path with
  | error g =>
      rw [hr] at hread
      cases hread
  | ok content => exact ⟨content, rfl⟩

/-- No fault escapes where the text becomes one that has bytes. -/
theorem not_escapes_of_transform (mode : Mode) (f : Fault) {cs : List Char}
    (hsource : source store s path = .ok (some cs))
    (ht : (s.transform (Text.ofChars cs)).toOption.any (·.code.toChars?.isSome) = true) :
    ¬ Escapes store mode s path f := by
  intro h
  cases h with
  | transform hsource' hfault _ =>
      obtain rfl := Option.some.inj (Except.ok.inj (hsource.symm.trans hsource'))
      rw [hfault] at ht
      cases ht
  | write hsource' hr _ _ hcode =>
      obtain rfl := Option.some.inj (Except.ok.inj (hsource.symm.trans hsource'))
      rw [hr, Except.toOption, Option.any_some, hcode] at ht
      cases ht

/-- A text without bytes that is to be written ends the processing, and
leaves the file empty. -/
theorem processFile_of_no_bytes {cs : List Char}
    (hsource : source store s path = .ok (some cs))
    (ht : s.transform (Text.ofChars cs) = .ok r) (hmodified : r.modified = true)
    (hcode : r.code.toChars? = none) :
    (processFile store .write s path).2 = .error (.unencodable .utf8 r.code)
      ∧ (processFile store .write s path).1.readBytes path = .ok [] := by
  obtain ⟨content, hread⟩ := exists_readBytes_of_source hsource
  obtain ⟨after, hafter⟩ := writeText_of_readBytes hread r.code
  rw [hcode] at hafter
  have hattempt : attempt store .write s path
      = (after, .error (.unencodable .utf8 r.code)) := by
    rw [attempt, hsource]
    simp [ht, finish, hmodified, hafter.1]
  rw [processFile, hattempt]
  exact ⟨rfl, hafter.2⟩

/-- A fault that escapes is what the processing ends with. The file is as
it was, or empty. -/
theorem processFile_of_escapes (h : Escapes store mode s path f) :
    (processFile store mode s path).2 = .error f
      ∧ ((processFile store mode s path).1 = store
        ∨ (processFile store mode s path).1.readBytes path = .ok []) := by
  cases h with
  | transform hsource ht hf =>
      rw [processFile, attempt, hsource]
      simp [ht, hf]
  | write hsource ht hmodified hmode hcode =>
      obtain ⟨hfault, hempty⟩ := processFile_of_no_bytes hsource ht hmodified hcode
      subst hmode
      exact ⟨hfault, Or.inr hempty⟩

/-- Where no fault escapes, a file gets a result, and only a file that has
been changed is written. -/
theorem processFile_of_not_escapes {v : Value} (hs : Config.checked v = .ok s)
    (h : ∀ f, ¬ Escapes store mode s path f) :
    ∃ result, (processFile store mode s path).2 = .ok result
      ∧ (result.status = .changed ∧ mode = .write
        ∨ (processFile store mode s path).1 = store) := by
  rw [processFile, attempt]
  rcases source_cases store path hs with
    ⟨f, hsource, hf⟩ | hsource | ⟨cs, hsource⟩
  · rw [hsource]
    simp [hf]
  · rw [hsource]
    exact ⟨_, rfl, Or.inr rfl⟩
  · rw [hsource]
    cases ht : s.transform (Text.ofChars cs) with
    | error f =>
        have hf : f.isContained = true := by
          rw [← Bool.not_eq_false]
          exact fun hf => h f (.transform hsource ht hf)
        simp [ht, hf]
    | ok r =>
        cases hmodified : r.modified with
        | false => simp [ht, finish, hmodified]
        | true =>
            cases mode with
            | check => simp [ht, finish, hmodified]
            | diff => simp [ht, finish, hmodified]
            | write =>
                obtain ⟨content, hread⟩ := exists_readBytes_of_source hsource
                obtain ⟨after, hafter⟩ := writeText_of_readBytes hread r.code
                cases hcode : r.code.toChars? with
                | none => exact absurd (.write hsource ht hmodified rfl hcode) (h _)
                | some ds =>
                    rw [hcode] at hafter
                    simp [ht, finish, hmodified, hafter.1]

/-- A file gets a result, and the store stays as it is unless the file has
been changed and written, if and only if no fault escapes. -/
theorem processFile_contained_iff {v : Value} (hs : Config.checked v = .ok s) :
    (∃ result, (processFile store mode s path).2 = .ok result
        ∧ (result.status = .changed ∧ mode = .write
          ∨ (processFile store mode s path).1 = store))
      ↔ ∀ f, ¬ Escapes store mode s path f := by
  constructor
  · rintro ⟨result, hok, -⟩ f hescape
    rw [(processFile_of_escapes hescape).1] at hok
    cases hok
  · exact processFile_of_not_escapes hs

theorem readBytes_of_single (content : Bytes) :
    Store.readBytes ⟨[("a.js", .file content)]⟩ "a.js" = .ok content := by
  have hname : ("a.js".isEmpty || "a.js".startsWith "/") = false := by cbv
  have hsplit : Path.split "a.js" = ["a.js"] := by cbv
  refine Store.readBytes_eq_ok_iff.2 ⟨["a.js"], ?_, rfl⟩
  rw [Store.locate, hname, hsplit]
  rfl

theorem processFile_contained_without_settings :
    Config.checked (.map []) = .ok .default
      ∧ ∃ result, (processFile
          ⟨[("a.js", .file (Utf8.encode "$(el).addClass('\\u0041');".toList))]⟩
          .write .default "a.js").2 = .ok result := by
  have hsource := source_of_readBytes (s := .default)
    (readBytes_of_single (Utf8.encode "$(el).addClass('\\u0041');".toList))
    rfl rfl
  have hno (f : Fault) := not_escapes_of_transform .write f hsource
    (by decide +kernel)
  obtain ⟨result, hok, -⟩ := (processFile_contained_iff (v := .map []) rfl).2 hno
  exact ⟨rfl, result, hok⟩

theorem exists_of_transform_any {p : TransformResult → Bool}
    (h : (s.transform t).toOption.any p = true) :
    ∃ r, s.transform t = .ok r ∧ p r = true := by
  cases hr : s.transform t with
  | error f =>
      rw [hr] at h
      cases h
  | ok r =>
      rw [hr] at h
      exact ⟨r, rfl, h⟩

/-- A rule writes out a literal that no text can hold: that is noticed
when the file is empty, and the processing ends. -/
theorem processFile_empties_file :
    ∃ v s store t, Config.checked v = .ok s
      ∧ store.readBytes "a.js" = .ok (Utf8.encode "$(el).addClass('\\uD800');".toList)
      ∧ (processFile store .write s "a.js").2 = .error (.unencodable .utf8 t)
      ∧ (processFile store .write s "a.js").1.readBytes "a.js" = .ok [] := by
  have hread := readBytes_of_single (Utf8.encode "$(el).addClass('\\uD800');".toList)
  have hsource := source_of_readBytes
    (s := { rules := { maxPasses := .int 1 } }) hread rfl rfl
  obtain ⟨r, ht, hr⟩ := exists_of_transform_any
    (s := { rules := { maxPasses := .int 1 } })
    (t := Text.ofChars "$(el).addClass('\\uD800');".toList)
    (p := fun r => r.modified && r.code.toChars?.isNone) (by decide +kernel)
  rw [Bool.and_eq_true, Option.isNone_iff_eq_none] at hr
  exact ⟨.map [("rules", .map [("max_passes", .int 1)])], _, _, r.code, rfl, hread,
    processFile_of_no_bytes hsource ht hr.1 hr.2⟩

end Batch

end Codemod
