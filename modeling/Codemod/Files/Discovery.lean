/-
Finding the files to process.

A file that is named is processed whatever it is called. A folder stands
for the files below it whose names have one of the extensions; names
that fit an excluded pattern are passed over, files and folders alike.
The files of a folder come before those of its folders, each in the
order of their names, and a file is found once.
-/
import Codemod.Config.Settings
import Codemod.Files.Glob
import Codemod.Files.Store

namespace Codemod

/-- Which names are found. -/
structure NameFilter where
  /-- One of these ends the name. -/
  extensions : List Value
  /-- None of these fits the name. -/
  excluded : Slot

namespace NameFilter

/-- The filter that is set. -/
def ofSettings (s : Settings) : Except Fault NameFilter :=
  match s.processing.extensions with
  | none => .error .unstructuredSetting
  | some extensions =>
    match extensions.parts? with
    | some vs => .ok ⟨vs, s.processing.excludedPatterns⟩
    | none => .error .unusableSetting

/-- One of the values is a text that passes a test; another value in
front of it is a fault. -/
def anyText (test : Text → Bool) : List Value → Except Fault Bool
  | [] => .ok false
  | .text t :: vs => if test t then .ok true else anyText test vs
  | _ :: _ => .error .unusableSetting

/-- The name has one of the extensions. -/
def hasExtension (f : NameFilter) (name : String) : Except Fault Bool :=
  anyText (fun t => t.reverse.isPrefixOf (Text.ofString name).reverse) f.extensions

/-- The name fits an excluded pattern. -/
def excludes (f : NameFilter) (name : String) : Except Fault Bool :=
  match f.excluded with
  | none => .error .unstructuredSetting
  | some patterns =>
    match patterns.parts? with
    | some vs => anyText (fun t => Glob.fits t.display name) vs
    | none => .error .unusableSetting

/-- A file of this name is found. -/
def admits (f : NameFilter) (name : String) : Except Fault Bool :=
  match f.hasExtension name with
  | .error e => .error e
  | .ok false => .ok false
  | .ok true => (f.excludes name).map (!·)

end NameFilter

-- ============================================================== folders

/-- Names in order. -/
def sortNames (names : List String) : List String := names.mergeSort fun a b => !(b < a)

/-- The names of the files among entries. -/
def fileNames (es : List (String × Entry)) : List String :=
  es.filterMap fun
    | (name, .file _) => some name
    | (_, .folder _) => none

mutual

/-- The files found below an entry. -/
def filesBelow (f : NameFilter) : Entry → Except Fault (List Location)
  | .file _ => .ok []
  | .folder es =>
    match (fileNames es).filterM f.admits, foldersBelow f es with
    | .ok names, .ok folders =>
      .ok ((sortNames names).map ([·])
        ++ (folders.mergeSort fun a b => !(b.1 < a.1)).flatMap fun (name, found) =>
          found.map (name :: ·))
    | .error e, _ => .error e
    | _, .error e => .error e

/-- The files found below each folder among entries. -/
def foldersBelow (f : NameFilter) :
    List (String × Entry) → Except Fault (List (String × List Location))
  | [] => .ok []
  | (name, e) :: es =>
    match e with
    | .file _ => foldersBelow f es
    | .folder inner =>
      match f.excludes name with
      | .error e => .error e
      | .ok true => foldersBelow f es
      | .ok false =>
        match filesBelow f (.folder inner), foldersBelow f es with
        | .ok found, .ok more => .ok ((name, found) :: more)
        | .error e, _ => .error e
        | _, .error e => .error e

end

-- ================================================================ paths

/-- A file that has been found: how it is called, and where it is. -/
structure Found where
  path : String
  location : Location

/-- The files that a spelled path stands for. -/
def candidates (store : Store) (f : NameFilter) (raw : String) :
    Except Fault (List Found) :=
  let path := Path.ofString raw
  match store.locate path.toString with
  | .error _ => .error (.noSuchPath raw)
  | .ok l =>
    match store.at? l with
    | none => .error (.noSuchPath raw)
    | some (.file _) => .ok [⟨path.toString, l⟩]
    | some (.folder es) =>
      (filesBelow f (.folder es)).map fun found =>
        found.map fun names => ⟨(path.within names).toString, l ++ names⟩

/-- The files found so far and further ones that are not among them. -/
def addFound (known more : List Found) : List Found :=
  more.foldl (fun seen c =>
    if seen.any (·.location == c.location) then seen else seen ++ [c]) known

/-- The files that paths stand for, each at its first place. -/
def findFiles (store : Store) (s : Settings) (paths : List String) :
    Except Fault (List Found) :=
  match NameFilter.ofSettings s with
  | .error e => .error e
  | .ok f =>
    paths.foldlM (fun known raw => (candidates store f raw).map (addFound known)) []

end Codemod
