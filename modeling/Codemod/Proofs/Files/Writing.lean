/-
Writing over a file.

What following a path depends on is the outline of a store: its folders,
their names, and where files are, but not what is in the files. Putting a
file in the place of another leaves the outline alone
(`Entry.outlines_putAt`), so a path that leads to a file still leads there
after the file has been written.

Main statements: `writeBytes_of_readBytes`, where a file can be read it
can be written, and then reads as it was written; and
`readBytes_of_writeBytes`, what has been written reads so, also in a file
that was not there. A new file adds to the outline: what could be followed
before leads where it led (`follow_of_extends`).
-/
import Codemod.Files.Store

namespace Codemod

namespace Entry

-- ============================================================== outlines

mutual

/-- The entry with nothing in its files. -/
def outline : Entry → Entry
  | .file _ => .file []
  | .folder es => .folder (outlines es)

/-- Entries with nothing in their files. -/
def outlines : List (String × Entry) → List (String × Entry)
  | [] => []
  | (name, e) :: es => (name, outline e) :: outlines es

end

variable {name : String} {e f : Entry} {es : List (String × Entry)}

theorem lookup_outlines :
    (outlines es).lookup name = (es.lookup name).map outline := by
  induction es with
  | nil => rfl
  | cons p es ih =>
      obtain ⟨n, g⟩ := p
      rw [outlines, List.lookup_cons, List.lookup_cons, ih]
      split <;> rfl

theorem at?_outline (l : Location) : e.outline.at? l = (e.at? l).map outline := by
  induction l generalizing e with
  | nil => rfl
  | cons name names ih =>
      cases e with
      | file b => rfl
      | folder es =>
          rw [outline, at?, at?, lookup_outlines]
          cases es.lookup name with
          | none => rfl
          | some f => exact ih

theorem at?_append {l m : Location} :
    e.at? (l ++ m) = (e.at? l).bind (·.at? m) := by
  induction l generalizing e with
  | nil =>
      rw [List.nil_append, at?.eq_def e []]
      rfl
  | cons name names ih =>
      cases e with
      | file b => rfl
      | folder es =>
          rw [List.cons_append, at?, at?]
          cases es.lookup name with
          | none => rfl
          | some f => exact ih

-- =============================================================== putting

theorem lookup_put_self : (put name e es).lookup name = some e := by
  induction es with
  | nil => simp [put]
  | cons p es ih =>
      obtain ⟨n, g⟩ := p
      rw [put]
      by_cases hn : n = name
      · simp [hn]
      · rw [if_neg (by simpa using hn), List.lookup_cons,
          beq_false_of_ne (Ne.symm hn)]
        exact ih

theorem outlines_put (h : es.lookup name = some f) (hef : e.outline = f.outline) :
    outlines (put name e es) = outlines es := by
  induction es with
  | nil => cases h
  | cons p es ih =>
      obtain ⟨n, g⟩ := p
      rw [List.lookup_cons] at h
      rw [put]
      by_cases hn : n = name
      · rw [hn, beq_self_eq_true] at h
        obtain rfl := Option.some.inj h
        rw [if_pos (by simpa using hn), hn, outlines, outlines, hef]
      · rw [beq_false_of_ne (Ne.symm hn)] at h
        rw [if_neg (by simpa using hn), outlines, outlines, ih h]

theorem at?_putAt_self {l : Location} (hl : l ≠ []) :
    (Entry.folder (putAt e l es)).at? l = some e := by
  fun_induction putAt e l es with
  | case1 => exact absurd rfl hl
  | case2 name es =>
      rw [at?, lookup_put_self]
      exact at?.eq_def e []
  | case3 name next names es below ih =>
      rw [at?, lookup_put_self]
      exact ih (List.cons_ne_nil _ _)

/-- Something of the same outline in its place leaves the outline as it
is. -/
theorem outlines_putAt {l : Location} (h : (Entry.folder es).at? l = some f)
    (hef : e.outline = f.outline) : outlines (putAt e l es) = outlines es := by
  fun_induction putAt e l es with
  | case1 => rfl
  | case2 name es =>
      rw [at?] at h
      split at h
      · next g hg =>
          obtain rfl := Option.some.inj h
          exact outlines_put hg hef
      · cases h
  | case3 name next names es below ih =>
      rw [at?] at h
      split at h
      · next g hg =>
          refine outlines_put hg ?_
          cases g with
          | file b => cases h
          | folder inner =>
              have hbelow : below = inner := by
                simp only [below, hg]
              rw [outline, outline, ih (by rw [hbelow]; exact h), hbelow]
      · cases h

end Entry

namespace Store

-- ============================================================= following

variable {s t : Store} {l m : Location} {path : String} {old new : Bytes}

/-- The store with nothing in its files. -/
def outline (s : Store) : Store := ⟨Entry.outlines s.entries⟩

theorem at?_outline (l : Location) :
    s.outline.at? l = (s.at? l).map Entry.outline := by
  rw [at?, at?, ← Entry.at?_outline]
  rfl

theorem follow_outline (names : List String) :
    s.outline.follow l names = s.follow l names := by
  induction names generalizing l with
  | nil => rfl
  | cons name names ih =>
      rw [follow, follow, at?_outline]
      cases s.at? l with
      | none => rfl
      | some e =>
          cases e with
          | file b => rfl
          | folder es =>
              simp only [Option.map_some, Entry.outline, Entry.lookup_outlines,
                Option.isSome_map, ih]

theorem locate_outline : s.outline.locate path = s.locate path := by
  rw [locate, locate, follow_outline]

theorem locate_eq_of_outline_eq (h : s.outline = t.outline) :
    s.locate path = t.locate path := by
  rw [← locate_outline, h, locate_outline]

theorem at?_append : s.at? (l ++ m) = (s.at? l).bind (·.at? m) :=
  Entry.at?_append

/-- What leads to an entry leads through folders. -/
theorem folder_of_at?_append {e : Entry} (h : s.at? (l ++ m) = some e)
    (hm : m ≠ []) : ∃ es, s.at? l = some (.folder es) := by
  rw [at?_append] at h
  obtain ⟨g, hg, hm'⟩ := Option.bind_eq_some_iff.1 h
  cases g with
  | folder es => exact ⟨es, hg⟩
  | file b =>
      obtain ⟨name, names, rfl⟩ := List.exists_cons_of_ne_nil hm
      cases hm'

theorem follow_append (first rest : List String) :
    s.follow l (first ++ rest) = (s.follow l first).bind (s.follow · rest) := by
  induction first generalizing l with
  | nil => rfl
  | cons name first ih =>
      rw [List.cons_append, follow, follow]
      cases s.at? l with
      | none => rfl
      | some e =>
          cases e with
          | file b => rfl
          | folder es =>
              simp only [ih]
              repeat' split
              all_goals rfl

-- ================================================================ writing

/-- A name that leads to a file is the name of the file: a dot, or a way
back, leads to a folder. -/
theorem follow_file {k : Location} {name : String}
    (h : s.follow k [name] = .ok l) (hl : s.at? l = some (.file old)) :
    ∃ es, s.at? k = some (.folder es) ∧ l = k ++ [name]
      ∧ es.lookup name = some (.file old)
      ∧ name ≠ "" ∧ name ≠ "." ∧ name ≠ ".." := by
  rw [follow] at h
  cases hek : s.at? k with
  | none =>
      rw [hek] at h
      cases h
  | some e =>
      cases e with
      | file b =>
          rw [hek] at h
          cases h
      | folder es =>
          simp only [hek, follow] at h
          split at h
          · obtain rfl := Except.ok.inj h
            rw [hek] at hl
            cases hl
          · next hdot =>
              simp only [Bool.or_eq_true, beq_iff_eq, not_or] at hdot
              split at h
              · split at h
                · cases h
                · next hne =>
                    rw [List.isEmpty_iff] at hne
                    obtain rfl := Except.ok.inj h
                    rw [← List.dropLast_concat_getLast hne] at hek
                    obtain ⟨ds, hds⟩ := folder_of_at?_append hek
                      (List.cons_ne_nil _ _)
                    rw [hl] at hds
                    cases hds
              · next hup =>
                  split at h
                  · obtain rfl := Except.ok.inj h
                    refine ⟨es, rfl, rfl, ?_, hdot.1, hdot.2, by simpa using hup⟩
                    rw [at?_append, hek, Option.bind_some, Entry.at?] at hl
                    split at hl
                    · next g hg =>
                        rw [hg, ← hl]
                        exact (Entry.at?.eq_def g []).symm
                    · cases hl
                  · cases h

/-- Where a path leads to a file, its last name is the name of the file in
the folder that the names before it lead to. -/
theorem follow_dropLast {names : List String} (hn : names ≠ [])
    (h : s.follow [] names = .ok l) (hl : s.at? l = some (.file old)) :
    ∃ k es, s.follow [] names.dropLast = .ok k ∧ s.at? k = some (.folder es)
      ∧ l = k ++ [names.getLast hn] ∧ es.lookup (names.getLast hn) = some (.file old)
      ∧ names.getLast hn ≠ "" ∧ names.getLast hn ≠ "."
      ∧ names.getLast hn ≠ ".." := by
  rw [← List.dropLast_concat_getLast hn, follow_append] at h
  cases hk : s.follow [] names.dropLast with
  | error f =>
      rw [hk] at h
      cases h
  | ok k =>
      rw [hk] at h
      obtain ⟨es, hfolder, hname⟩ := follow_file h hl
      exact ⟨k, es, rfl, hfolder, hname⟩

/-- Writing a file leaves the outline alone. -/
theorem outline_putAt (h : s.at? l = some (.file old)) :
    (s.putAt l (.file new)).outline = s.outline :=
  congrArg Store.mk (Entry.outlines_putAt h rfl)

theorem at?_putAt_self (h : s.at? l = some (.file old)) :
    (s.putAt l (.file new)).at? l = some (.file new) :=
  Entry.at?_putAt_self fun hnil => by
    subst hnil
    cases h

/-- A file that is there can be written where it is. -/
theorem writeBytes_of_locate (new : Bytes) (h : s.locate path = .ok l)
    (hl : s.at? l = some (.file old)) :
    s.writeBytes path new = .ok (s.putAt l (.file new))
      ∧ (s.putAt l (.file new)).locate path = .ok l
      ∧ (s.putAt l (.file new)).at? l = some (.file new) := by
  refine ⟨?_, (locate_eq_of_outline_eq (outline_putAt hl)).trans h, at?_putAt_self hl⟩
  unfold locate at h
  split at h
  · cases h
  · next hpath =>
      have hn : Path.split path ≠ [] := by
        intro hnil
        rw [hnil, follow] at h
        obtain rfl := Except.ok.inj h
        cases hl
      obtain ⟨k, es, hk, hek, rfl, hes, hne⟩ := follow_dropLast hn h hl
      have hlast : (Path.split path).getLastD "" = (Path.split path).getLast hn := by
        rw [List.getLastD_eq_getLast?, List.getLast?_eq_some_getLast hn,
          Option.getD_some]
      rw [writeBytes, if_neg hpath, target]
      simp only [hk, hek, hlast, hes]
      simp [hne]

theorem readBytes_eq_ok_iff {b : Bytes} : s.readBytes path = .ok b
    ↔ ∃ l, s.locate path = .ok l ∧ s.at? l = some (.file b) := by
  unfold readBytes get
  cases s.locate path with
  | error f => simp
  | ok l =>
      simp only [Except.ok.injEq, exists_eq_left']
      cases s.at? l with
      | none => simp
      | some e =>
          cases e with
          | file c => simp
          | folder es => simp

/-- A file that can be read can be written, and then it reads as it was
written. -/
theorem writeBytes_of_readBytes (h : s.readBytes path = .ok old) (new : Bytes) :
    ∃ t, s.writeBytes path new = .ok t ∧ t.readBytes path = .ok new := by
  obtain ⟨l, hl, hfile⟩ := readBytes_eq_ok_iff.1 h
  obtain ⟨hwrite, hloc, hat⟩ := writeBytes_of_locate new hl hfile
  exact ⟨_, hwrite, readBytes_eq_ok_iff.2 ⟨l, hloc, hat⟩⟩

-- ============================================================= new files

/-- Every folder of the one store is a folder of the other, with all the
names it has. -/
def Extends (t s : Store) : Prop :=
  ∀ m es, s.at? m = some (.folder es) →
    ∃ fs, t.at? m = some (.folder fs)
      ∧ ∀ name, (es.lookup name).isSome → (fs.lookup name).isSome

theorem follow_of_extends (h : Extends t s) {names : List String}
    (hs : s.follow l names = .ok m) : t.follow l names = .ok m := by
  induction names generalizing l with
  | nil => exact hs
  | cons name names ih =>
      rw [follow] at hs ⊢
      cases he : s.at? l with
      | none =>
          rw [he] at hs
          cases hs
      | some e =>
          cases e with
          | file b =>
              rw [he] at hs
              cases hs
          | folder es =>
              obtain ⟨fs, hfs, hnames⟩ := h l es he
              simp only [he] at hs
              simp only [hfs]
              split at hs
              · next hdot =>
                  rw [if_pos hdot]
                  exact ih hs
              · next hdot =>
                  rw [if_neg hdot]
                  split at hs
                  · next hup =>
                      rw [if_pos hup]
                      split at hs
                      · cases hs
                      · next hroot =>
                          rw [if_neg hroot]
                          exact ih hs
                  · next hup =>
                      rw [if_neg hup]
                      split at hs
                      · next hname =>
                          rw [if_pos (hnames name hname)]
                          exact ih hs
                      · cases hs

end Store

namespace Entry

variable {name other : String} {e : Entry} {es fs : List (String × Entry)}

theorem lookup_put_of_ne (h : other ≠ name) :
    (put name e es).lookup other = es.lookup other := by
  induction es with
  | nil => rw [put, List.lookup_cons, beq_false_of_ne h]
  | cons p es ih =>
      obtain ⟨n, g⟩ := p
      rw [put]
      split
      · next hn =>
          rw [List.lookup_cons, List.lookup_cons, eq_of_beq hn, beq_false_of_ne h]
      · rw [List.lookup_cons, List.lookup_cons, ih]

theorem isSome_lookup_put (h : (es.lookup other).isSome) :
    ((put name e es).lookup other).isSome := by
  by_cases hn : other = name
  · rw [hn, lookup_put_self, Option.isSome_some]
  · rwa [lookup_put_of_ne hn]

/-- A file that is put where no folder is leaves every folder there. -/
theorem folder_putAt {l m : Location} {content : Bytes} {inner : List (String × Entry)}
    (hl : (Entry.folder es).at? l = some (.folder fs))
    (hfile : ∀ gs, fs.lookup name ≠ some (.folder gs))
    (hm : (Entry.folder es).at? m = some (.folder inner)) :
    ∃ outer, (Entry.folder (putAt (.file content) (l ++ [name]) es)).at? m
        = some (.folder outer)
      ∧ ∀ other, (inner.lookup other).isSome → (outer.lookup other).isSome := by
  induction l generalizing es m with
  | nil =>
      rw [at?.eq_def] at hl
      obtain rfl := Entry.folder.inj (Option.some.inj hl)
      rw [List.nil_append, putAt]
      cases m with
      | nil =>
          rw [at?.eq_def] at hm
          obtain rfl := Entry.folder.inj (Option.some.inj hm)
          exact ⟨_, at?.eq_def _ [], fun other => isSome_lookup_put⟩
      | cons n m =>
          rw [at?] at hm ⊢
          by_cases hn : n = name
          · subst hn
            cases hg : es.lookup n with
            | none =>
                rw [hg] at hm
                cases hm
            | some g =>
                cases g with
                | folder gs => exact absurd hg (hfile gs)
                | file b =>
                    rw [hg] at hm
                    cases m <;> cases hm
          · rw [lookup_put_of_ne hn]
            exact ⟨inner, hm, fun _ => id⟩
  | cons first l ih =>
      rw [at?] at hl
      cases hg : es.lookup first with
      | none =>
          rw [hg] at hl
          cases hl
      | some g =>
          rw [hg] at hl
          cases g with
          | file b => cases l <;> cases hl
          | folder below =>
              have hput : putAt (.file content) (first :: l ++ [name]) es
                  = put first (.folder (putAt (.file content) (l ++ [name]) below)) es := by
                cases l <;> simp only [List.cons_append, List.nil_append, putAt, hg]
              rw [hput]
              cases m with
              | nil =>
                  rw [at?.eq_def] at hm
                  obtain rfl := Entry.folder.inj (Option.some.inj hm)
                  exact ⟨_, at?.eq_def _ [], fun other => isSome_lookup_put⟩
              | cons n m =>
                  rw [at?] at hm ⊢
                  by_cases hn : n = first
                  · subst hn
                    rw [hg] at hm
                    rw [lookup_put_self]
                    exact ih hl hm
                  · rw [lookup_put_of_ne hn]
                    exact ⟨inner, hm, fun _ => id⟩

end Entry

namespace Store

variable {s t : Store} {path : String} {content : Bytes}

/-- Where a file is written, the names in front of its own lead to a
folder that has no folder of that name. -/
theorem exists_of_writeBytes (h : s.writeBytes path content = .ok t) :
    ∃ folder name l es, Path.split path = folder ++ [name]
      ∧ (path.isEmpty || path.startsWith "/") = false
      ∧ s.follow [] folder = .ok l ∧ s.at? l = some (.folder es)
      ∧ (name == "" || name == "." || name == "..") = false
      ∧ (∀ gs, es.lookup name ≠ some (.folder gs))
      ∧ t = s.putAt (l ++ [name]) (.file content) := by
  unfold writeBytes at h
  split at h
  · cases h
  · next hpath =>
      obtain ⟨name, hlast⟩ : ∃ name, (Path.split path).getLastD "" = name := ⟨_, rfl⟩
      simp only [target, hlast] at h
      split at h
      · cases h
      · next l hl =>
          split at h
          · next es hes =>
              cases hname : (name == "" || name == "." || name == "..") with
              | true =>
                  simp only [hname] at h
                  cases h
              | false =>
                  simp only [hname, Bool.false_eq_true, if_false] at h
                  split at h
                  · cases h
                  · next hlookup =>
                      refine ⟨(Path.split path).dropLast, name, l, es, ?_,
                        Bool.eq_false_iff.2 hpath, hl, hes, hname, hlookup,
                        (Except.ok.inj h).symm⟩
                      rw [List.getLastD_eq_getLast?] at hlast
                      cases hg : (Path.split path).getLast? with
                      | none =>
                          rw [hg, Option.getD_none] at hlast
                          rw [← hlast] at hname
                          cases hname
                      | some n =>
                          rw [hg, Option.getD_some] at hlast
                          rw [← hlast]
                          obtain ⟨front, hfront⟩ := List.getLast?_eq_some_iff.1 hg
                          rw [hfront, List.dropLast_concat]
          · cases h
          · cases h

/-- What has been written to a file reads so. -/
theorem readBytes_of_writeBytes (h : s.writeBytes path content = .ok t) :
    t.readBytes path = .ok content := by
  obtain ⟨folder, name, l, es, hsplit, hpath, hl, hes, hname, hlookup, rfl⟩ :=
    exists_of_writeBytes h
  have hextends : Extends (s.putAt (l ++ [name]) (.file content)) s :=
    fun m fs hm => Entry.folder_putAt hes hlookup hm
  have hself : (s.putAt (l ++ [name]) (.file content)).at? (l ++ [name])
      = some (.file content) := Entry.at?_putAt_self (by simp)
  obtain ⟨fs, hfs⟩ := folder_of_at?_append hself (by simp)
  have hhas : (fs.lookup name).isSome = true := by
    rw [at?_append, hfs, Option.bind_some, Entry.at?] at hself
    split at hself
    · next g hg => rw [hg, Option.isSome_some]
    · cases hself
  refine readBytes_eq_ok_iff.2 ⟨l ++ [name], ?_, hself⟩
  rw [locate, if_neg (Bool.eq_false_iff.1 hpath), hsplit, follow_append,
    follow_of_extends hextends hl]
  simp only [Bool.or_eq_false_iff, beq_eq_false_iff_ne] at hname
  change (s.putAt (l ++ [name]) (.file content)).follow l [name] = _
  rw [follow]
  simp only [hfs]
  rw [if_neg (by simpa using hname.1), if_neg (by simpa using hname.2), if_pos hhas, follow]

end Store

end Codemod
