import Vendoring.Command.Arguments
import Vendoring.Command.Document
import Vendoring.Project

/-!
Running a command: what it prints, for people or for programs, and the status it ends with.
-/

namespace Vendoring.Command

/-- The version of this program. -/
def programVersion : String := "0.2.0"

def versionText : String := "vend " ++ programVersion

/-- What a run leaves behind besides files. -/
structure Outcome where
  status : Nat
  stdout : String
  stderr : String
  deriving DecidableEq, Repr

/-- What a run takes from the process it runs in. -/
structure Environment where
  scratch : Files.Scratch
  cwd : Path
  maxDepth? : Option String

/-- A failure, by the code that programs go by. -/
structure Failure where
  code : String
  message : String
  deriving DecidableEq, Repr

/-- The codes of failures that are mistakes in what was asked for or configured. -/
def mistakeCodes : List String :=
  ["VEND_DEP_VERSION_CONFLICT", "VEND_CONFIG_INVALID", "VEND_VERSION_INVALID",
    "VEND_EXPORT_TARGET_INVALID", "VEND_MANIFEST_INVALID", "VEND_CONFIG_READ_FAILED",
    "PROJECT_NOT_FOUND", "SELF_REFERENCE_OVERFLOW"]

def Failure.status (f : Failure) : Nat := if f.code ∈ mistakeCodes then 2 else 1

def Failure.toJson (f : Failure) : Json :=
  .object [("code", .string f.code), ("message", .string f.message)]

def line (s : String) : String := s ++ "\n"

def lines (ss : List String) : String := String.join (ss.map line)

/-- A run that did what it was asked for. -/
def success (stdout : String) : Outcome := ⟨0, stdout, ""⟩

/-- A document with the mark of success. -/
def successDocument (fields : List (String × Json)) : Outcome :=
  success (line (Json.object (("ok", .bool true) :: fields)).pretty)

/-- A run that failed. Documents have further fields. -/
def Failure.outcome (f : Failure) (json : Bool) (fields : List (String × Json)) : Outcome :=
  if json then
    ⟨f.status, line (Json.object (("ok", .bool false) :: ("error", f.toJson) :: fields)).pretty, ""⟩
  else ⟨f.status, "", line s!"error: {f.code}: {f.message}"⟩

def Failure.ofBuild (f : BuildFault) : Failure := ⟨f.code, f.message⟩

def Failure.ofConfig (f : Config.Fault) : Failure := ⟨f.code, f.message⟩

def Failure.ofManifest (f : AliasManifest.Fault) : Failure := ⟨f.code, f.message⟩

def Failure.ofResolve (f : ResolveFault) : Failure := ⟨f.code, f.message⟩

def Failure.noProject (start : Path) : Failure :=
  ⟨"PROJECT_NOT_FOUND", s!"No package.json found from {start.text}"⟩

def reportLine (r : PackageReport) : String :=
  s!"  {r.identity} ({r.kind.name}) -> {r.vendoredRoot}  " ++
    s!"[{r.filesCopied} files, {r.markersReplaced} markers]"

def reportLines (r : BuildReport) : List String :=
  [s!"Vendored {r.packages.length} package(s) at version {r.version}"] ++
    r.packages.map reportLine ++
    r.passThrough.map (fun identity => s!"  {identity} (pass_through)") ++
    (if r.dependencies = [] then []
      else "Dependencies:" :: r.dependencies.map fun d => s!"  {d.1}@{d.2}") ++
    [s!"Aliases written to {r.aliasManifest.text}"]

def planLine (p : PlannedPackage) : String := s!"  {p.identity} ({p.kind.name}) -> {p.vendoredRoot}"

def planLines (p : BuildPlan) : List String :=
  [s!"Would vendor {p.packages.length} package(s) at version {p.version}"] ++
    p.packages.map planLine ++
    p.dependencies.ranges.map fun d => s!"  dependency {d.1}@{d.2}"

/-- One row of the table of aliases. -/
def aliasLine (e : AliasEntry) : String :=
  let identity := Text.padded 32 e.identity
  match e.root? with
  | some root => s!"{identity} {Text.padded 12 e.kind.name} {root}"
  | none => s!"{identity} {e.kind.name}"

def runVersion (json : Bool) : Outcome :=
  if json then
    success (line (Json.object [("ok", .bool true), ("version", .string programVersion)]).compact)
  else success (line versionText)

variable {m : Type → Type} [Monad m]

/-- The outcome of work that can fail; a failure's document has the given fields. -/
def settle {α : Type} (json : Bool) (fields : List (String × Json)) (work : ExceptT Failure m α)
    (done : α → m Outcome) : m Outcome := do
  match ← work.run with
  | .ok a => done a
  | .error f => return f.outcome json fields

section View
variable [Files.FileView m]

def findProject (cwd : Path) : ExceptT Failure m Path := do
  match ← (Project.root? cwd : m (Option Path)) with
  | some root => return root
  | none => throw (.noProject cwd)

/-- The path of the alias manifest of the project at `cwd`, and its registry. -/
def loadRegistry (cwd : Path) : ExceptT Failure m (Path × AliasRegistry) := do
  let root ← findProject cwd
  let config ← ExceptT.adapt Failure.ofConfig (Project.config root)
  ExceptT.adapt Failure.ofManifest (Project.registry root config)

def showAliases (json : Bool) (p : Path) (r : AliasRegistry) : Outcome :=
  if json then
    successDocument [("schema_version", .int AliasManifest.currentSchema),
      ("alias_manifest", .string p.text), ("aliases", .array (r.toList.map AliasEntry.toJson))]
  else if r.toList.isEmpty then
    success (line s!"No aliases ({p.text} not found or empty)")
  else success (lines (r.toList.map aliasLine))

def runAliases (cwd : Path) (json : Bool) : m Outcome :=
  settle json [] (loadRegistry cwd) fun (p, r) => return showAliases json p r

def resolutionDocument (q : ResolveRequest) (importer manifest : Path) (found : Resolution)
    (trace : Json) : Outcome :=
  successDocument [("specifier", .string q.specifier),
    ("conditions", Json.strings q.conditions), ("parent", .string importer.text),
    ("alias_manifest", .string manifest.text),
    ("redirected", .bool found.redirect.redirected),
    ("delegated", .string found.redirect.specifier), ("hops", .int found.redirect.hops),
    ("resolved", .string found.path.text), ("trace", trace)]

def resolutionLines (q : ResolveRequest) (found : Resolution) : List String :=
  (if found.redirect.redirected then [s!"{q.specifier} -> {found.redirect.specifier}"] else []) ++
    [found.path.text]

def runResolve (cwd : Path) (json : Bool) (q : ResolveRequest) : m Outcome :=
  settle json [] (loadRegistry cwd) fun (manifest, registry) => do
    let importer := (q.importer?.map fun p => cwd.join p.text).getD cwd
    let maxDepth := q.maxDepth?.getD defaultMaxDepth
    let lookup := Lookup.resolve Lookup.defaultExtensions ⟨importer, q.conditions⟩
    let (found, steps) ← registry.resolveTraced lookup q.conditions maxDepth q.specifier
    let trace := TraceStep.document steps
    settle json [("trace", trace)] (ExceptT.mk (pure (found.mapError Failure.ofResolve)))
      fun found =>
        return if json then resolutionDocument q importer manifest found trace
          else success (lines (resolutionLines q found))

/-- Plans the build of a project. -/
def planProject (cwd : Path) : ExceptT Failure m BuildPlan := do
  let root ← findProject cwd
  let config ← ExceptT.adapt Failure.ofConfig (Config.load root)
  let inputs ← ExceptT.adapt Failure.ofBuild (BuildInputs.load root config)
  ExceptT.adapt Failure.ofBuild (ExceptT.mk (pure (inputs.plan config)))

end View

section Store
variable [Files.FileStore m]

/-- Builds a project. -/
def buildProject (scratch : Files.Scratch) (cwd : Path) : ExceptT Failure m BuildReport := do
  let root ← findProject cwd
  let config ← ExceptT.adapt Failure.ofConfig (Config.load root)
  ExceptT.adapt Failure.ofBuild (build scratch root config)

def runBuild (scratch : Files.Scratch) (cwd : Path) (json dryRun : Bool) : m Outcome :=
  let schema := [("schema_version", Json.int buildSchema)]
  if dryRun then
    settle json schema (planProject cwd) fun plan =>
      return if json then successDocument plan.fields else success (lines (planLines plan))
  else
    settle json schema (buildProject scratch cwd) fun report =>
      return if json then successDocument report.fields else success (lines (reportLines report))

def perform (environment : Environment) (i : Invocation) : m Outcome :=
  let cwd := i.cwd?.getD environment.cwd
  match i.task with
  | .version => return runVersion i.json
  | .build dryRun => runBuild environment.scratch cwd i.json dryRun
  | .resolve request => runResolve cwd i.json request
  | .aliases => runAliases cwd i.json

/-- How to call the program. -/
def usage : String :=
  "Usage: vend [-v] [--json] [--cwd PATH] " ++
    "[version | build [--dry-run] | aliases | resolve SPECIFIER [-C NAME] [--parent DIR] " ++
    "[--max-depth N]]"

def Stop.outcome : Stop → Outcome
  | .version => success (line versionText)
  | .help => success (line usage)
  | .misuse => ⟨2, "", line usage⟩

/-- Runs the program with some arguments. -/
def run (environment : Environment) (arguments : List String) : m Outcome :=
  match Invocation.parse arguments environment.maxDepth? with
  | .ok i => perform environment i
  | .error stop => return stop.outcome

end Store

end Vendoring.Command
