import Vendoring.ExportMap.Document
import Vendoring.Files.Replace
import Vendoring.Json.Printer

/-!
Alias manifests: the document in which a build leaves the entries for the programs that resolve
imports.
-/

namespace Vendoring

/-- What a manifest says about one package. -/
structure AliasRecord where
  root? : Option String
  exports? : Option ExportMap

def AliasRecord.passThrough : AliasRecord := ⟨none, none⟩

structure AliasManifest where
  schemaVersion : Nat
  aliases : Keyed AliasRecord

namespace AliasManifest

/-- The version of the document that is written, and the only one that is taken. -/
def currentSchema : Nat := 1

def empty : AliasManifest := ⟨currentSchema, []⟩

def insert (m : AliasManifest) (identity : String) (record : AliasRecord) : AliasManifest :=
  { m with aliases := m.aliases.insert identity record }

end AliasManifest

def AliasRecord.toJson (r : AliasRecord) : Json :=
  let root := r.root?.map fun root => ("vendoredRoot", Json.string root)
  let exports := r.exports?.map fun m => ("exports", m.toJson)
  .object (root.toList ++ exports.toList)

namespace AliasManifest

def toJson (m : AliasManifest) : Json :=
  .object [("schema_version", .int m.schemaVersion),
    ("aliases", .object (m.aliases.map fun e => (e.1, e.2.toJson)))]

/-- The document as it is written to a file. -/
def text (m : AliasManifest) : String := m.toJson.pretty ++ "\n"

end AliasManifest

namespace AliasRecord

/-- A record that is being read: each field is none until it was given. -/
structure Partial where
  root? : Option (Option String) := none
  exports? : Option (Option ExportMap) := none

def shape : Json.Reader.Shape Partial where
  title := "struct AliasRecord"
  slots := [
    .of "vendoredRoot" (Json.Reader.optional (Json.Reader.string "a string"))
      (·.root?) (fun r v => { r with root? := some v }),
    .of "exports" (Json.Reader.optional ExportMap.reader)
      (·.exports?) (fun r v => { r with exports? := some v })]
  takesUnknown := true
  takesShort := true

def reader : Json.Reader AliasRecord := fun room d => do
  let r ← shape.fill {} room d
  return ⟨r.root?.getD none, r.exports?.getD none⟩

end AliasRecord

namespace AliasManifest

/-- A manifest that is being read. -/
structure Partial where
  schemaVersion? : Option Nat := none
  aliases? : Option (Keyed AliasRecord) := none

def shape : Json.Reader.Shape Partial where
  title := "struct AliasManifest"
  slots := [
    .of "schema_version" Json.Reader.word32
      (·.schemaVersion?) (fun m v => { m with schemaVersion? := some v }),
    .of "aliases" (Json.Reader.tableOf AliasRecord.reader)
      (·.aliases?) (fun m v => { m with aliases? := some v })]
  takesUnknown := true
  takesShort := false

def reader : Json.Reader AliasManifest := fun room d => do
  let m ← shape.fill {} room d
  let schemaVersion ← Json.Reader.required "schema_version" m.schemaVersion?
  let aliases ← Json.Reader.required "aliases" m.aliases?
  return ⟨schemaVersion, aliases⟩

/-- Reads a document of any version. -/
def parse (text : String) : Json.Result AliasManifest := Json.read reader text

/-- Why a manifest file cannot be used. -/
inductive Fault
  | unreadable (path : Path) (cause : Files.Fault)
  | malformed (path : Path) (cause : Json.Fault)
  | unsupported (path : Path) (schemaVersion : Nat)
  | unwritable (path : Path) (cause : Files.Fault)
  deriving DecidableEq, Repr

def Fault.code : Fault → String
  | unreadable .. => "ALIAS_MANIFEST_READ_FAILED"
  | malformed .. | unsupported .. => "ALIAS_MANIFEST_INVALID"
  | unwritable .. => "ALIAS_MANIFEST_WRITE_FAILED"

def Fault.message : Fault → String
  | unreadable p cause => s!"failed to read alias manifest {p.text}: {cause.message}"
  | malformed p cause => s!"failed to parse alias manifest {p.text}: {cause.message}"
  | unsupported p found =>
    s!"alias manifest {p.text} has schema version {found}, expected {currentSchema}"
  | unwritable p cause => s!"failed to write alias manifest {p.text}: {cause.message}"

/-- Takes the text of the file at `p`, if it is a manifest of the current version. -/
def accept (p : Path) (text : String) : Except Fault AliasManifest := do
  match parse text with
  | .error cause => throw (.malformed p cause)
  | .ok m =>
    if m.schemaVersion = currentSchema then return m
    else throw (.unsupported p m.schemaVersion)

variable {m : Type → Type} [Monad m]

def load [Files.FileView m] (p : Path) : ExceptT Fault m AliasManifest := do
  let text ← ExceptT.adapt (Fault.unreadable p) (Files.readText p)
  ExceptT.mk (pure (accept p text))

def save [Files.FileStore m] (scratch : Files.Scratch) (p : Path) (manifest : AliasManifest) :
    ExceptT Fault m Unit :=
  ExceptT.adapt (Fault.unwritable p) (Files.replaceText scratch p manifest.text)

end AliasManifest

end Vendoring
