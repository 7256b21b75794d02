import Vendoring.ExportMap.Document
import Vendoring.ExportMap.Lookup
import Vendoring.Files.Access

/-!
The lookup of files. A specifier is relative, absolute or bare; bare ones are looked for in the
`node_modules` of the directories above the importer. A file may be named without its extension,
and a directory stands for the file that its `package.json` or its index names. The export map of
a package decides alone what can be imported from it.
-/

namespace Vendoring.Lookup

/-- Who asks: the directory of the importing file, and its conditions, the most wanted first. -/
structure Importer where
  directory : Path
  conditions : List String

inductive Reason
  | specifierInvalid
  | unsupportedScheme
  | notFound
  | isDirectory
  | nodeModulesNotFound
  | packageJsonInvalid
  | exportsNotFound
  | exportsTargetNotFound
  deriving DecidableEq, Repr

namespace Reason

def code : Reason → String
  | specifierInvalid => "SPECIFIER_INVALID"
  | unsupportedScheme => "UNSUPPORTED_SCHEME"
  | notFound => "NOT_FOUND"
  | isDirectory => "IS_DIRECTORY"
  | nodeModulesNotFound => "NODE_MODULES_NOT_FOUND"
  | packageJsonInvalid => "PACKAGE_JSON_INVALID"
  | exportsNotFound => "EXPORTS_NOT_FOUND"
  | exportsTargetNotFound => "EXPORTS_TARGET_NOT_FOUND"

def all : List Reason :=
  [specifierInvalid, unsupportedScheme, notFound, isDirectory, nodeModulesNotFound,
    packageJsonInvalid, exportsNotFound, exportsTargetNotFound]

/-- Whether a package was found but refuses the import; another one above may still take it. -/
def isRefusal : Reason → Bool
  | packageJsonInvalid | exportsNotFound | exportsTargetNotFound => true
  | _ => false

end Reason

/-- A lookup that failed, and the places it looked at, the first ones of them. -/
structure Fault where
  specifier : String
  reason : Reason
  tried : List Path
  deriving DecidableEq, Repr

def Fault.message (f : Fault) : String := s!"cannot resolve '{f.specifier}': {f.reason.code}"

def defaultExtensions : List String := [".js", ".cjs", ".mjs", ".json"]

/-- How many places are kept. -/
def triedLimit : Nat := 20

/-- A lookup that notes the places it looks at. -/
abbrev Probe (m : Type → Type) := StateT (List Path) m

abbrev Outcome := Except Reason Path

variable {m : Type → Type} [Monad m] [Files.FileView m]

def note (p : Path) : Probe m Unit :=
  modify fun tried => if tried.length < triedLimit then tried ++ [p] else tried

/-- The first of some places that is a file. -/
def firstFile : List Path → Probe m (Option Path)
  | [] => return none
  | p :: r => do
    note p
    if ← (Files.isFile p : m Bool) then return some (← (Files.canonicalOrSame p : m Path))
    else firstFile r

/-- The places that a path may stand for: itself, or with an extension behind its last name. -/
def spellings (extensions : List String) (base : Path) : List Path :=
  base :: match base.fileName? with
    | none => []
    | some name => extensions.map fun e => base.withFileName (name ++ e)

def file (extensions : List String) (base : Path) : Probe m (Option Path) :=
  firstFile (spellings extensions base)

def indexFiles (extensions : List String) (directory : Path) : List Path :=
  extensions.map fun e => directory.join ("index" ++ e)

def index (extensions : List String) (directory : Path) : Probe m (Option Path) :=
  firstFile (indexFiles extensions directory)

/-- The value of a `package.json`, if it can be read. -/
def readPackage (p : Path) : m (Option Json) := do
  match ← (Files.readText p).run with
  | .ok text => return (Json.parse text).toOption
  | .error _ => return none

/-- The `package.json` of a directory: none if there is no such file. -/
def packageOf (directory : Path) : Probe m (Option (Except Reason Json)) := do
  let p := directory.join "package.json"
  if ← (Files.isFile p : m Bool) then
    note p
    match ← (readPackage p : m (Option Json)) with
    | some v => return some (.ok v)
    | none => return some (.error .packageJsonInvalid)
  else return none

/-- The file that a package exports for a subpath. -/
def exported (extensions : List String) (conditions : List String) (package : Path) (v : Json)
    (subpath : String) : Probe m Outcome := do
  match ExportMap.ofPackage v with
  | .error _ => return .error .packageJsonInvalid
  | .ok map =>
    match map.resolve? subpath conditions with
    | none => return .error .exportsNotFound
    | some target =>
      let rest := String.ofList (Text.dropDotSlashes target.toList)
      match ← file extensions (package.join rest) with
      | some p => return .ok p
      | none => return .error .exportsTargetNotFound

/-- The file that the main field of a package names. -/
def mainFile (extensions : List String) (directory : Path) (v : Json) :
    Probe m (Option Path) := do
  match (v.field? "main").bind Json.string? with
  | none => return none
  | some main =>
    let p := directory.join main
    match ← file extensions p with
    | some found => return some found
    | none =>
      if ← (Files.isDirectory p : m Bool) then index extensions p else return none

def indexOrFail (extensions : List String) (directory : Path) : Probe m Outcome := do
  match ← index extensions directory with
  | some p => return .ok p
  | none => return .error .isDirectory

/-- The file that a directory stands for. -/
def directory (extensions : List String) (conditions : List String) (dir : Path) :
    Probe m Outcome := do
  match ← packageOf dir with
  | some (.error e) => return .error e
  | some (.ok v) =>
    match v.field? "exports" with
    | some exports => exported extensions conditions dir exports ""
    | none =>
      match ← mainFile extensions dir v with
      | some p => return .ok p
      | none => indexOrFail extensions dir
  | none => indexOrFail extensions dir

/-- The file that a path stands for. -/
def path (extensions : List String) (conditions : List String) (base : Path) :
    Probe m Outcome := do
  match ← file extensions base with
  | some p => return .ok p
  | none =>
    if ← (Files.isDirectory base : m Bool) then directory extensions conditions base
    else return .error .notFound

/-- The file that a subpath of a package stands for. -/
def inPackage (extensions : List String) (conditions : List String) (package : Path)
    (subpath : String) : Probe m Outcome := do
  if subpath = "" then path extensions conditions package
  else
    let plain := package.join (String.ofList (subpath.toList.dropWhile (· = '/')))
    match ← packageOf package with
    | some (.error e) => return .error e
    | some (.ok v) =>
      match v.field? "exports" with
      | some exports => exported extensions conditions package exports subpath
      | none => path extensions conditions plain
    | none => path extensions conditions plain

/-- What is known of a bare specifier when all directories have been looked at: the last refusal,
and whether there was any `node_modules`. -/
def bareFailure (seen : Bool) (refusal? : Option Reason) : Reason :=
  refusal?.getD (if seen then .notFound else .nodeModulesNotFound)

/-- Looks for a package in the `node_modules` of some directories. -/
def bare (extensions : List String) (conditions : List String) (s : Specifier) (seen : Bool)
    (refusal? : Option Reason) : List Path → Probe m Outcome
  | [] => return .error (bareFailure seen refusal?)
  | dir :: above => do
    let modules := dir.join "node_modules"
    if ← (Files.isDirectory modules : m Bool) then
      let package := modules.join s.identity
      note package
      if ← (Files.isDirectory package : m Bool) then
        match ← inPackage extensions conditions package s.subpath with
        | .ok p => return .ok p
        | .error e =>
          bare extensions conditions s true (if e.isRefusal then some e else refusal?) above
      else bare extensions conditions s true refusal? above
    else bare extensions conditions s seen refusal? above

/-- Whether a specifier names its scheme. -/
def hasScheme (spec : String) : Bool :=
  let cs := spec.toList
  Text.occursIn [':', '/', '/'] cs || "node:".toList.isPrefixOf cs || "data:".toList.isPrefixOf cs

/-- Whether a specifier is a path from the top, also one with a drive or a share in front. -/
def isAbsolute (spec : String) : Bool :=
  match spec.toList with
  | '/' :: _ => true
  | '\\' :: '\\' :: _ => true
  | drive :: ':' :: slash :: _ => drive.isAlpha && (slash = '\\' || slash = '/')
  | _ => false

def outcome (extensions : List String) (importer : Importer) (spec : String) :
    Probe m Outcome :=
  if spec = "" then return .error .specifierInvalid
  else if hasScheme spec then return .error .unsupportedScheme
  else if Specifier.isRelative spec then
    path extensions importer.conditions (importer.directory.join spec)
  else if isAbsolute spec then path extensions importer.conditions ⟨spec⟩
  else
    bare extensions importer.conditions (Specifier.parse spec) false none
      importer.directory.ancestors

/-- The file that a specifier stands for. -/
def resolve (extensions : List String) (importer : Importer) (spec : String) :
    m (Except Fault Path) := do
  match ← (outcome extensions importer spec).run [] with
  | (.ok p, _) => return .ok p
  | (.error reason, tried) => return .error ⟨spec, reason, tried⟩

end Vendoring.Lookup
