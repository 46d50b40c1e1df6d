/-
What becomes of the ends of lines.

Reading makes a line feed of every end of a line, and writing does not
make it back. So a file that is rewritten ends all its lines with line
feeds, also those that no rule has touched
(`shortens_untouched_lines`), and it holds what its own text is
transformed into just when that is also what the text with line feeds
is transformed into (`written_exactly_iff`); for a text without carriage
returns that is always so.
-/
import Codemod.Proofs.Batch.Modes

namespace Codemod.Batch

variable {store : Store} {s : Settings} {path : String} {cs : List Char}
  {r : FileResult}

/-- The file holds the text that another text is transformed into. -/
def Holds (store : Store) (s : Settings) (path : String) (cs : List Char) : Prop :=
  ∃ t ds, s.transform (Text.ofChars cs) = .ok t ∧ t.code = Text.ofChars ds
    ∧ store.readBytes path = .ok (Utf8.encode ds)

/-- A file that a run has rewritten holds what its text with line feeds
is transformed into, and has no carriage return. It holds what its own
text is transformed into just when the two have the same outcome, as they
have if there was no carriage return in it. -/
theorem written_exactly_iff (hread : store.readBytes path = .ok (Utf8.encode cs))
    (hr : (processFile store .write s path).2 = .ok r) (hchanged : r.status = .changed) :
    (∃ t ds, s.transform (Text.ofChars (Utf8.unifyLines cs)) = .ok t
        ∧ t.code = Text.ofChars ds ∧ '\r' ∉ ds
        ∧ (processFile store .write s path).1.readBytes path = .ok (Utf8.encode ds)
        ∧ (Holds (processFile store .write s path).1 s path cs
          ↔ (s.transform (Text.ofChars cs)).map (·.code) = .ok t.code))
      ∧ ('\r' ∉ cs → Holds (processFile store .write s path).1 s path cs) := by
  obtain ⟨l, hl, hfile⟩ := Store.readBytes_eq_ok_iff.1 hread
  have hprocess := processFile_eq_rework .write s hl hfile
  rw [hprocess] at hr
  rcases rework_cases s path (Utf8.encode cs) with ⟨x, hx, hstatus⟩ | ⟨us, t, ht, hm⟩
  · rw [hx] at hr
    exact absurd hchanged (hstatus r hr)
  · obtain ⟨ds, hcode, hds⟩ := ht.rework_write hm hr
    obtain rfl : Utf8.unifyLines cs = us :=
      Except.ok.inj ((Utf8.read_encode cs).symm.trans ht.read)
    have hwritten : (processFile store .write s path).1.readBytes path
        = .ok (Utf8.encode ds) := by
      rw [hprocess, hds, Store.readBytes_eq_ok_iff]
      exact ⟨l, (Store.locate_eq_of_outline_eq (Store.outline_putAt hfile)).trans hl,
        Store.at?_putAt_self hfile⟩
    have hunified : t.code.IsUnified := Settings.isUnified_of_transform ht.transform
      (Text.IsUnified.ofChars_iff.2 Utf8.not_mem_unifyLines)
    refine ⟨⟨t, ds, ht.transform, hcode, Text.IsUnified.ofChars_iff.1 (hcode ▸ hunified),
      hwritten, ?_⟩, fun hcs => ?_⟩
    · constructor
      · rintro ⟨u, es, hu, hucode, hes⟩
        have heq : ds = es :=
          Utf8.encode_injective (Except.ok.inj (hwritten.symm.trans hes))
        rw [hu, Except.map, hucode, hcode, heq]
      · intro hsame
        cases hu : s.transform (Text.ofChars cs) with
        | error f =>
            rw [hu] at hsame
            cases hsame
        | ok u =>
            rw [hu] at hsame
            exact ⟨u, ds, hu, (Except.ok.inj hsame).trans hcode, hwritten⟩
    · have htransform := ht.transform
      rw [Utf8.unifyLines_of_not_mem hcs] at htransform
      exact ⟨t, ds, htransform, hcode, hwritten⟩

/-- A file of two lines, of which the first is rewritten: the second loses
the carriage return at its end, which the text's own transformation
keeps. -/
theorem shortens_untouched_lines :
    let cs := "$(el).show();\r\nfoo();\r\n".toList
    let store : Store := ⟨[("a.js", .file (Utf8.encode cs))]⟩
    let after := (processFile store .write .default "a.js").1
    (processFile store .write .default "a.js").2.map (·.status) = .ok .changed
      ∧ ((Settings.default.transform (Text.ofChars cs)).map (·.code)
        = .ok (Text.ofString "el.style.display = \"\";\r\nfoo();\r\n"))
      ∧ after.readBytes "a.js"
        = .ok (Utf8.encode "el.style.display = \"\";\nfoo();\n".toList)
      ∧ ¬ Holds after .default "a.js" cs := by
  intro cs store after
  have hcode : (Settings.default.transform (Text.ofChars cs)).map (·.code)
      = .ok (Text.ofString "el.style.display = \"\";\r\nfoo();\r\n") :=
    eq_ok_of_toOption (by decide +kernel)
  have hbytes : after.readBytes "a.js"
      = .ok (Utf8.encode "el.style.display = \"\";\nfoo();\n".toList) :=
    eq_ok_of_toOption (by decide +kernel)
  refine ⟨eq_ok_of_toOption (by decide +kernel), hcode, hbytes, ?_⟩
  rintro ⟨t, ds, ht, hds, hread⟩
  rw [ht] at hcode
  have hlines := Utf8.encode_injective (Except.ok.inj (hread.symm.trans hbytes))
  rw [hlines] at hds
  exact absurd (hds.symm.trans (Except.ok.inj hcode)) (by decide)

/-- A file whose lines end in line feeds is written exactly. -/
theorem written_exactly_with_line_feeds :
    let cs := "$(el).show();\nfoo();\n".toList
    let store : Store := ⟨[("a.js", .file (Utf8.encode cs))]⟩
    Holds (processFile store .write .default "a.js").1 .default "a.js" cs := by
  intro cs store
  have hread : store.readBytes "a.js" = .ok (Utf8.encode cs) :=
    eq_ok_of_toOption (by decide +kernel)
  have hchanged : (processFile store .write .default "a.js").2.toOption.map (·.status)
      = some .changed := by decide +kernel
  obtain ⟨r, hr, hstatus⟩ := Option.map_eq_some_iff.1 hchanged
  exact (written_exactly_iff hread (eq_ok_of_toOption hr) hstatus).2 (by decide)

end Codemod.Batch
