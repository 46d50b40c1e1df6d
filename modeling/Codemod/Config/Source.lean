/-
Where a configuration comes from.

A configuration is layered: what a file sets replaces what is built in,
and what the environment sets replaces what the file sets, setting by
setting. Configurations are saved as they are loaded, in JSON or YAML.
-/
import Codemod.Config.Check
import Codemod.Config.Environment
import Codemod.Document.Json
import Codemod.Document.Yaml.Writer
import Codemod.Files.Store

namespace Codemod.Config

-- =============================================================== layers

/-- Configurations laid over one another, the later over the earlier.
One that is empty sets nothing. -/
def mergeAll (vs : List Value) : Except Fault (List (String × Value)) :=
  vs.foldlM (fun base v =>
    if !v.isTruthy then .ok base
    else match v with
      | .map es => .ok (Value.mergeEntries base es)
      | _ => .error .unstructuredSetting) []

-- ================================================================ files

/-- Where a configuration is looked for, in this order. -/
def defaultPaths : List String := [
  "nativize.json", "nativize.yaml", "nativize.yml",
  ".nativize.json", ".nativize.yaml", ".nativize.yml"]

/-- The first path that exists; the usual ones if none are given. -/
def find? (store : Store) (paths : List String) : Option String :=
  (if paths.isEmpty then defaultPaths else paths).find? store.exists?

/-- A format of configuration files. -/
inductive Format where
  | json
  | yaml
deriving DecidableEq

/-- The format of a file, by the end of its path. -/
def Format.ofPath (path : String) : Format :=
  if path.endsWith ".yaml" || path.endsWith ".yml" then .yaml else .json

/-- The format of a name. -/
def Format.ofName (name : String) : Format :=
  if ["yaml", "yml"].contains (name.map Char.toLower) then .yaml else .json

/-- The document that a text is in a format. In YAML an empty value
stands for an empty mapping. -/
def Format.parse (format : Format) (cs : List Char) : Option Value :=
  match format with
  | .json => Json.parse cs
  | .yaml => (Yaml.parse cs).map fun v => if v.isTruthy then v else .map []

/-- The text of a document in a format. -/
def Format.write (format : Format) (v : Value) : Text :=
  match format with
  | .json => Json.write true v
  | .yaml => Yaml.write v

/-- The configuration in a file. -/
def readFile (store : Store) (path : String) : Except Fault (List (String × Value)) :=
  if !store.exists? path then .error (.setting (.noFile path))
  else match store.readBytes path with
    | .error f => .error (.setting (.unreadable f path))
    | .ok bytes =>
      match Utf8.read bytes with
      | .error f => .error f
      | .ok cs =>
        match (Format.ofPath path).parse cs with
        | none => .error (.setting .malformed)
        | some (.map es) => .ok es
        | some _ => .error (.setting .noMapping)

-- ============================================================== loading

/-- How a configuration is loaded. -/
structure Request where
  /-- The file; if none is named, the usual places are searched. -/
  path : Option String := none
  useEnvironment : Bool := true
  validate : Bool := true

/-- The entries of the file that a request leads to. -/
def fileEntries (store : Store) (path : Option String) :
    Except Fault (List (String × Value)) :=
  match path.filter (!·.isEmpty) with
  | some p => readFile store p
  | none =>
    match find? store [] with
    | some p => readFile store p
    | none => .ok []

/-- Loads a configuration. -/
def load (store : Store) (env : Environment) (r : Request) : Except Fault Settings := do
  let inFile ← fileEntries store r.path
  let inEnvironment := if r.useEnvironment then ofEnvironment env else []
  let merged := Value.map (Value.mergeEntries inFile inEnvironment)
  if r.validate then check merged
  Settings.ofValue merged

/-- Loads the configuration of one file. -/
def loadFile (store : Store) (path : String) : Except Fault Settings :=
  load store [] { path := some path, useEnvironment := false }

-- =============================================================== saving

/-- Saves settings. -/
def save (store : Store) (s : Settings) (path : String) (format : Format) :
    Except Fault Store := do
  let v ← s.toValue
  match (format.write v).toChars? with
  | none => throw (.unencodable .utf8 (format.write v))
  | some cs =>
    match store.writeBytes path (Utf8.encode cs) with
    | .ok store' => return store'
    | .error f => throw (.setting (.unwritable f path))

/-- A file that settings have been saved to gives the same settings
back. -/
def readsBack (store : Store) (s : Settings) (path : String) : Except Fault Bool := do
  let back ← (← loadFile store path).toValue
  return back.same (← s.toValue)

end Codemod.Config
