/-
Processing files.

Each file is processed on its own: read, transformed and, in write mode,
written back. What can be expected to go wrong with a file is recorded
in its result; any other fault ends a sequential run, but a parallel one
records it as well.
-/
import Codemod.Batch.Outcome
import Codemod.Diff.Unified
import Codemod.Files.Discovery

namespace Codemod

/-- A fault that is recorded in the result of the file it occurs in. -/
def Fault.isContained : Fault → Bool
  | .invalidScript => true
  | .undecodable .. => true
  | .unknownRule _ => true
  | .unknownGroups _ => true
  | .noSuchPath _ => true
  | .file .. => true
  | .setting _ => true
  | _ => false

namespace Batch

/-- The result for a file that has failed. -/
def failure (path : String) (f : Fault) : FileResult :=
  { path := path, status := .failed, reason := f.message }

/-- The file is larger than allowed. -/
def isTooLarge (s : Settings) (content : Bytes) : Except Fault Bool :=
  match s.processing.maxFileSize.floor? with
  | some n => .ok (decide (n < content.length))
  | none => .error .unusableSetting

/-- Writes a text to a file. The file is emptied first, so that a text
that has no bytes leaves it empty. -/
def writeText (store : Store) (path : String) (t : Text) : Store × Except Fault Unit :=
  match store.writeBytes path [] with
  | .error f => (store, .error (.file f path))
  | .ok emptied =>
    match t.toChars? with
    | none => (emptied, .error (.unencodable .utf8 t))
    | some cs =>
      match emptied.writeBytes path (Utf8.encode cs) with
      | .error f => (emptied, .error (.file f path))
      | .ok written => (written, .ok ())

/-- The text of a file that is not too large. -/
def source (store : Store) (s : Settings) (path : String) :
    Except Fault (Option (List Char)) := do
  let content ← (store.readBytes path).mapError (.file · path)
  if ← isTooLarge s content then return none
  return some (← Utf8.read content)

/-- What is done with a text that has been transformed. -/
def finish (store : Store) (mode : Mode) (path : String) (before : Text)
    (r : TransformResult) : Store × Except Fault FileResult :=
  if !r.modified then (store, .ok { path := path, status := .unchanged })
  else
    let result : FileResult :=
      { path := path, status := .changed, appliedRules := r.appliedRules }
    match mode with
    | .check => (store, .ok result)
    | .diff => (store, .ok { result with diff := Diff.unified path before r.code })
    | .write =>
      match writeText store path r.code with
      | (store', .ok ()) => (store', .ok result)
      | (store', .error f) => (store', .error f)

/-- Processes a file; a fault is not contained. -/
def attempt (store : Store) (mode : Mode) (s : Settings) (path : String) :
    Store × Except Fault FileResult :=
  match source store s path with
  | .error f => (store, .error f)
  | .ok none =>
    (store, .ok { path := path, status := .skipped, reason := "file too large" })
  | .ok (some cs) =>
    match s.transform (Text.ofChars cs) with
    | .error f => (store, .error f)
    | .ok r => finish store mode path (Text.ofChars cs) r

/-- Processes a file. -/
def processFile (store : Store) (mode : Mode) (s : Settings) (path : String) :
    Store × Except Fault FileResult :=
  match attempt store mode s path with
  | (store', .ok r) => (store', .ok r)
  | (store', .error f) =>
    (store', if f.isContained then .ok (failure path f) else .error f)

/-- Processes files one after the other, up to the first fault that is
not contained. -/
def processEach (mode : Mode) (s : Settings) :
    Store → List String → Store × Except Fault (List FileResult)
  | store, [] => (store, .ok [])
  | store, path :: paths =>
    match processFile store mode s path with
    | (store', .error f) => (store', .error f)
    | (store', .ok r) =>
      match processEach mode s store' paths with
      | (last, .ok rs) => (last, .ok (r :: rs))
      | (last, .error f) => (last, .error f)

/-- Processes files, each in a worker that contains every fault. -/
def processPool (mode : Mode) (s : Settings) :
    Store → List String → Store × List FileResult
  | store, [] => (store, [])
  | store, path :: paths =>
    let (store', outcome) := processFile store mode s path
    let result := match outcome with
      | .ok r => r
      | .error f => failure path f
    let (last, rs) := processPool mode s store' paths
    (last, result :: rs)

/-- Several files are processed at a time. -/
def usesPool (s : Settings) (count : Nat) : Except Fault Bool :=
  match s.processing.strategy with
  | .known .parallel =>
    match s.processing.jobs.int? with
    | some n => .ok (1 < n && 1 < count)
    | none => .error .unusableSetting
  | _ => .ok false

/-- Results in the order of their paths. -/
def sortResults (rs : List FileResult) : List FileResult :=
  rs.mergeSort fun a b => !(b.path < a.path)

/-- Processes the files that paths stand for. -/
def run (store : Store) (mode : Mode) (s : Settings) (paths : List String) :
    Store × Except Fault BatchResult :=
  match findFiles store s paths with
  | .error f => (store, .error f)
  | .ok found =>
    let files := found.map (·.path)
    match usesPool s files.length with
    | .error f => (store, .error f)
    | .ok true =>
      let (last, rs) := processPool mode s store files
      (last, .ok ⟨mode, sortResults rs⟩)
    | .ok false =>
      match processEach mode s store files with
      | (last, .error f) => (last, .error f)
      | (last, .ok rs) => (last, .ok ⟨mode, sortResults rs⟩)

end Batch

end Codemod
