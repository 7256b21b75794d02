import Vendoring.Files.Replace
import Vendoring.Json.Printer
import Vendoring.Json.Reader

/-!
Package manifests. Only the name, the version, the dependencies and the exports mean something
here; all other fields are kept as they are, in their order.
-/

namespace Vendoring

structure PackageManifest where
  fields : Keyed Json

namespace PackageManifest

def fileName : String := "package.json"

/-- What is wrong with a manifest. -/
inductive Fault
  | malformed (cause : Json.Fault)
  | notObject (found : String)
  | dependenciesNotObject (found : String)
  | rangeNotText (name found : String)
  deriving DecidableEq, Repr

def Fault.message : Fault → String
  | malformed cause => s!"Invalid JSON: {cause.message}"
  | notObject found => s!"package.json must be a JSON object, got {found}"
  | dependenciesNotObject found => s!"dependencies must be an object, got {found}"
  | rangeNotText name found => s!"Invalid range for '{name}': expected string, got {found}"

def ofJson : Json → Except Fault PackageManifest
  | .object fields => .ok ⟨fields⟩
  | v => .error (.notObject v.kind)

def parse (text : String) : Except Fault PackageManifest :=
  match Json.parse text with
  | .ok v => ofJson v
  | .error cause => .error (.malformed cause)

def name? (m : PackageManifest) : Option String := (m.fields.get? "name").bind Json.string?

def version? (m : PackageManifest) : Option String := (m.fields.get? "version").bind Json.string?

/-- The declared exports; null declares none. -/
def exports? (m : PackageManifest) : Option Json := (m.fields.get? "exports").filter (!·.isNull)

/-- The declared ranges, which all have to be text. -/
def rangesOf : List (String × Json) → Except Fault (List (String × String))
  | [] => .ok []
  | (name, .string range) :: r => (rangesOf r).map ((name, range) :: ·)
  | (name, v) :: _ => .error (.rangeNotText name v.kind)

def dependencies (m : PackageManifest) : Except Fault (List (String × String)) :=
  match m.fields.get? "dependencies" with
  | none => .ok []
  | some (.object fields) => rangesOf fields
  | some v => .error (.dependenciesNotObject v.kind)

def setField (m : PackageManifest) (name : String) (v : Json) : PackageManifest :=
  ⟨m.fields.insert name v⟩

def setName (m : PackageManifest) (name : String) : PackageManifest :=
  m.setField "name" (.string name)

def setVersion (m : PackageManifest) (version : String) : PackageManifest :=
  m.setField "version" (.string version)

/-- The fields of the dependencies, if they are an object. -/
def section? (m : PackageManifest) : Option (List (String × Json)) :=
  (m.fields.get? "dependencies").bind Json.object?

/-- Sets the range of a dependency. Dependencies that are no object are replaced by one. -/
def setDependency (m : PackageManifest) (name range : String) : PackageManifest :=
  m.setField "dependencies"
    (.object (Keyed.insert (m.section?.getD []) name (.string range)))

def startsWith (lead name : String) : Bool := lead.toList.isPrefixOf name.toList

/-- Sets all dependencies whose names start with `scope` to one version. -/
def pin (m : PackageManifest) (scope version : String) : PackageManifest :=
  match m.section? with
  | none => m
  | some fields => m.setField "dependencies" (.object (fields.map fun e =>
      if startsWith scope e.1 then (e.1, .string version) else e))

/-- The names of the dependencies that start with `scope`. -/
def pinnable (m : PackageManifest) (scope : String) : List String :=
  ((m.section?.getD []).map (·.1)).filter (startsWith scope)

/-- The document as it is written to a file. -/
def text (m : PackageManifest) : String := (Json.object m.fields).pretty ++ "\n"

variable {m : Type → Type} [Monad m]

/-- Writes the manifest of the package in a directory. -/
def save [Files.FileStore m] (scratch : Files.Scratch) (directory : Path)
    (manifest : PackageManifest) : ExceptT Files.Fault m Unit :=
  Files.replaceText scratch (directory.join fileName) manifest.text

end PackageManifest

end Vendoring
