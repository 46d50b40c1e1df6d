/-
The files a run works on.

A store is the tree below the working folder. A location is the list of
names that leads to an entry; following a path gives its location, so
that two paths to one entry have one location.
-/
import Codemod.Text.Utf8
import Codemod.Files.Path

namespace Codemod

/-- An entry of a folder. -/
inductive Entry where
  | file (content : Bytes)
  | folder (entries : List (String × Entry))
deriving Inhabited

/-- The names that lead to an entry. -/
abbrev Location := List String

/-- The tree below the working folder. -/
structure Store where
  entries : List (String × Entry)

-- =========================================================== locations

namespace Entry

/-- The entry at a location below another. -/
def at? : Entry → Location → Option Entry
  | e, [] => some e
  | .file _, _ :: _ => none
  | .folder es, name :: names =>
    match es.lookup name with
    | some e => e.at? names
    | none => none

/-- The entries with one more, in the place of one with the same name. -/
def put (name : String) (e : Entry) : List (String × Entry) → List (String × Entry)
  | [] => [(name, e)]
  | (n, f) :: es => if n == name then (name, e) :: es else (n, f) :: put name e es

/-- The entries below a folder; a file has none. -/
def children : Entry → List (String × Entry)
  | .file _ => []
  | .folder es => es

/-- The entries with something put at a location, the folders on the way
made if they are missing. -/
def putAt (e : Entry) : Location → List (String × Entry) → List (String × Entry)
  | [], es => es
  | [name], es => put name e es
  | name :: next :: names, es =>
    let below := match es.lookup name with
      | some (.folder inner) => inner
      | _ => []
    put name (.folder (putAt e (next :: names) below)) es

end Entry

namespace Store

/-- The entry at a location. -/
def at? (s : Store) (l : Location) : Option Entry := (Entry.folder s.entries).at? l

/-- The store with something put at a location. -/
def putAt (s : Store) (l : Location) (e : Entry) : Store := ⟨Entry.putAt e l s.entries⟩

/-- Follows names from a location. Two points lead back to the folder
above; what lies above the working folder is out of reach. -/
def follow (s : Store) : Location → List String → Except FileFault Location
  | l, [] => .ok l
  | l, name :: names =>
    match s.at? l with
    | none => .error .missing
    | some (.file _) => .error .notDirectory
    | some (.folder es) =>
      if name == "" || name == "." then s.follow l names
      else if name == ".." then
        if l.isEmpty then .error .missing else s.follow l.dropLast names
      else if (es.lookup name).isSome then s.follow (l ++ [name]) names
      else .error .missing

/-- The location that a spelled path leads to. -/
def locate (s : Store) (path : String) : Except FileFault Location :=
  if path.isEmpty || path.startsWith "/" then .error .missing
  else s.follow [] (Path.split path)

/-- The entry that a spelled path leads to. -/
def get (s : Store) (path : String) : Except FileFault Entry :=
  match s.locate path with
  | .error f => .error f
  | .ok l =>
    match s.at? l with
    | some e => .ok e
    | none => .error .missing

/-- The path leads somewhere. -/
def exists? (s : Store) (path : String) : Bool := (s.get path).toBool

-- ==================================================== reading and writing

/-- The bytes of a file. -/
def readBytes (s : Store) (path : String) : Except FileFault Bytes :=
  match s.get path with
  | .error f => .error f
  | .ok (.folder _) => .error .isDirectory
  | .ok (.file content) => .ok content

/-- The folder of a spelled path, and the last name of the path. -/
def target (path : String) : List String × String :=
  let names := Path.split path
  (names.dropLast, names.getLastD "")

/-- The store after writing a file, which may be new. -/
def writeBytes (s : Store) (path : String) (content : Bytes) : Except FileFault Store :=
  if path.isEmpty || path.startsWith "/" then .error .missing
  else
    let (folder, name) := target path
    match s.follow [] folder with
    | .error f => .error f
    | .ok l =>
      match s.at? l with
      | some (.folder es) =>
        if name == "" || name == "." || name == ".." then .error .isDirectory
        else match es.lookup name with
          | some (.folder _) => .error .isDirectory
          | _ => .ok (s.putAt (l ++ [name]) (.file content))
      | some (.file _) => .error .notDirectory
      | none => .error .missing

-- ================================================================ files

mutual

/-- The files of an entry with their locations. -/
def filesOf (l : Location) : Entry → List (Location × Bytes)
  | .file content => [(l, content)]
  | .folder es => filesIn l es

/-- The files of entries with their locations. -/
def filesIn (l : Location) : List (String × Entry) → List (Location × Bytes)
  | [] => []
  | (name, e) :: es => filesOf (l ++ [name]) e ++ filesIn l es

end

/-- The files of a store with their locations. -/
def files (s : Store) : List (Location × Bytes) := filesIn [] s.entries

/-- The store that holds the given entries at spelled paths. -/
def ofEntries (es : List (String × Entry)) : Store :=
  es.foldl (fun s (path, e) => s.putAt (Path.ofString path).names e) ⟨[]⟩

end Store

end Codemod
