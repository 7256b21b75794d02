import Vendoring.Json.Printer
import Vendoring.Marker

/-!
The configuration of a build.
-/

namespace Vendoring

structure Config where
  /-- The packages to vendor, in build order. -/
  packages : List String := []
  /-- Packages that are known but not redirected. -/
  passThrough : List String := []
  sourceRoot : Path := ⟨".."⟩
  vendoredDir : Path := ⟨"vendored"⟩
  aliasManifest : Path := ⟨"vend-aliases.json"⟩
  /-- The version of the build; that of the host if there is none. -/
  version? : Option String := none
  /-- Dependencies whose names start with this get the version of the build. -/
  internalScope : String := "@my/"
  marker? : Option Marker := some .default
  sourceGlobs : List String := ["*.js"]
  renameVendored : Bool := false

namespace Config

def fileName : String := "vend.json"

def default : Config := {}

def toJson (c : Config) : Json :=
  .object ([("packages", Json.strings c.packages),
    ("passThrough", Json.strings c.passThrough),
    ("sourceRoot", .string c.sourceRoot.text),
    ("vendoredDir", .string c.vendoredDir.text),
    ("aliasManifest", .string c.aliasManifest.text)] ++
    (c.version?.map fun v => ("version", Json.string v)).toList ++
    [("internalScope", .string c.internalScope),
    ("marker", (c.marker?.map Marker.toJson).getD .null),
    ("sourceGlobs", Json.strings c.sourceGlobs),
    ("renameVendored", .bool c.renameVendored)])

/-- A configuration that is being read. -/
structure Partial where
  packages? : Option (List String) := none
  passThrough? : Option (List String) := none
  sourceRoot? : Option String := none
  vendoredDir? : Option String := none
  aliasManifest? : Option String := none
  version? : Option (Option String) := none
  internalScope? : Option String := none
  marker? : Option (Option Marker) := none
  sourceGlobs? : Option (List String) := none
  renameVendored? : Option Bool := none

section Slots
open Json.Reader

def text : Json.Reader String := string "a string"

def path : Json.Reader String := string "path string"

def shape : Shape Partial where
  title := "struct VendConfig"
  slots := [
    .of "packages" (listOf text) (·.packages?) (fun c v => { c with packages? := some v }),
    .of "passThrough" (listOf text) (·.passThrough?)
      (fun c v => { c with passThrough? := some v }),
    .of "sourceRoot" path (·.sourceRoot?) (fun c v => { c with sourceRoot? := some v }),
    .of "vendoredDir" path (·.vendoredDir?) (fun c v => { c with vendoredDir? := some v }),
    .of "aliasManifest" path (·.aliasManifest?) (fun c v => { c with aliasManifest? := some v }),
    .of "version" (optional text) (·.version?) (fun c v => { c with version? := some v }),
    .of "internalScope" text (·.internalScope?) (fun c v => { c with internalScope? := some v }),
    .of "marker" (optional Marker.reader) (·.marker?) (fun c v => { c with marker? := some v }),
    .of "sourceGlobs" (listOf text) (·.sourceGlobs?)
      (fun c v => { c with sourceGlobs? := some v }),
    .of "renameVendored" bool (·.renameVendored?)
      (fun c v => { c with renameVendored? := some v })]
  takesUnknown := false
  takesShort := true

end Slots

/-- The configuration that was read, with defaults for what was not given. -/
def Partial.complete (c : Partial) : Config where
  packages := c.packages?.getD default.packages
  passThrough := c.passThrough?.getD default.passThrough
  sourceRoot := (c.sourceRoot?.map Path.mk).getD default.sourceRoot
  vendoredDir := (c.vendoredDir?.map Path.mk).getD default.vendoredDir
  aliasManifest := (c.aliasManifest?.map Path.mk).getD default.aliasManifest
  version? := c.version?.getD default.version?
  internalScope := c.internalScope?.getD default.internalScope
  marker? := c.marker?.getD default.marker?
  sourceGlobs := c.sourceGlobs?.getD default.sourceGlobs
  renameVendored := c.renameVendored?.getD default.renameVendored

def reader : Json.Reader Config := fun room d => Partial.complete <$> shape.fill {} room d

def parse (text : String) : Json.Result Config := Json.read reader text

/-- Why a configuration file cannot be used. -/
inductive Fault
  | unreadable (path : Path) (cause : Files.Fault)
  | malformed (path : Path) (cause : Json.Fault)
  deriving DecidableEq, Repr

def Fault.code : Fault → String
  | unreadable .. => "VEND_CONFIG_READ_FAILED"
  | malformed .. => "VEND_CONFIG_INVALID"

def Fault.message : Fault → String
  | unreadable p cause => s!"Failed to read config at {p.text}: {cause.message}"
  | malformed p cause => s!"Failed to parse config at {p.text}: {cause.message}"

variable {m : Type → Type} [Monad m] [Files.FileView m]

/-- Reads the configuration of the host package at `host`. -/
def load (host : Path) : ExceptT Fault m Config := do
  let p := host.join fileName
  let text ← ExceptT.adapt (Fault.unreadable p) (Files.readText p)
  match parse text with
  | .ok c => return c
  | .error cause => throw (.malformed p cause)

end Config

end Vendoring
