import Vendoring.Alias.Registry
import Vendoring.Build.Fault
import Vendoring.Build.Identity
import Vendoring.Config
import Vendoring.ExportMap.Relocation

/-!
Plans: all that a build decides before it writes. A plan depends on the manifests alone; where
there is no plan, nothing was touched.
-/

namespace Vendoring

/-- A package to vendor, with its manifest. -/
structure SourcePackage where
  identity : String
  directory : Path
  manifest : PackageManifest

/-- All that a build reads before it writes. -/
structure BuildInputs where
  host : PackageManifest
  sources : List SourcePackage

/-- A package as it will be vendored. -/
structure PlannedPackage where
  identity : String
  source : Path
  /-- The place of the copy as seen from the alias manifest. -/
  vendoredRoot : String
  /-- The export map with targets in the copy. -/
  exports? : Option ExportMap
  /-- The manifest of the copy, if it gets a name of its own. -/
  renamed? : Option PackageManifest

structure BuildPlan where
  version : String
  packages : List PlannedPackage
  passThrough : List String
  dependencies : Dependencies
  aliases : AliasManifest
  host : PackageManifest
  /-- The dependencies of the host that get the version of the build. -/
  pinned : List String
  vendoredDir : Path
  aliasManifest : Path
  marker? : Option Marker
  globs : List Glob

namespace PlannedPackage

def kind (p : PlannedPackage) : AliasKind := if p.exports?.isSome then .exports else .path

def record (p : PlannedPackage) : AliasRecord := ⟨some p.vendoredRoot, p.exports?⟩

end PlannedPackage

namespace BuildPlan

/-- The version of the build: the configured one, or else that of the host. -/
def syncVersion (config : Config) (host : PackageManifest) : Except BuildFault String :=
  match config.version?.orElse fun _ => host.version? with
  | none => .error .versionMissing
  | some raw =>
    match Version.parse raw with
    | .ok v => .ok v.text
    | .error cause => .error (.versionInvalid raw cause)

/-- The number of directories between the host and the alias manifest. -/
def manifestDepth? (aliasManifest : Path) : Option Nat :=
  if aliasManifest.fileName?.isSome then
    ((aliasManifest.parent?.getD ⟨""⟩).plainSegments?).map List.length
  else none

/-- The way up through `depth` directories. -/
def upward (depth : Nat) : String :=
  if depth = 0 then "./" else String.join (List.replicate depth "../")

/-- The vendored directory as seen from the alias manifest. Both must lie below the host. -/
def vendoredBase (config : Config) : Except BuildFault String :=
  match config.vendoredDir.plainSegments? with
  | none | some [] => .error (.vendoredDirInvalid config.vendoredDir)
  | some segments =>
    match manifestDepth? config.aliasManifest with
    | none => .error (.aliasManifestInvalid config.aliasManifest)
    | some depth => .ok (upward depth ++ String.intercalate "/" segments)

def compileGlobs : List String → Except BuildFault (List Glob)
  | [] => return []
  | text :: r => do
    match Glob.parse text with
    | .ok glob => return glob :: (← compileGlobs r)
    | .error cause => throw (.globInvalid text cause)

def checkIdentity (identity : String) : Except BuildFault Unit :=
  if Identity.isValid identity then .ok () else .error (.identityInvalid identity)

/-- Checks identities that come behind those of `seen`: each is valid and none comes twice. -/
def checkIdentities (seen : List String) : List String → Except BuildFault Unit
  | [] => return
  | identity :: r => do
    checkIdentity identity
    if identity ∈ seen then throw (.identityRepeated identity)
    checkIdentities (identity :: seen) r

/-- The export map of the copy at `root`. -/
def relocatedExports (identity root : String) (v : Json) : Except BuildFault ExportMap :=
  match ExportMap.ofPackage v with
  | .error cause => .error (.exportsInvalid identity cause)
  | .ok map =>
    match map.relocate root with
    | .ok map => .ok map
    | .error target => .error (.exportTargetInvalid identity target)

/-- The manifest of a copy with a name of its own. -/
def renamed (version : String) (s : SourcePackage) : PackageManifest :=
  (s.manifest.setName (Identity.vendoredName (s.manifest.name?.getD s.identity))).setVersion version

/-- Plans one package, and adds what it depends on. -/
def planPackage (config : Config) (version base : String) (merged : Dependencies)
    (s : SourcePackage) : Except BuildFault (Dependencies × PlannedPackage) := do
  checkIdentity s.identity
  let declared ← s.manifest.dependencies.mapError (BuildFault.manifestInvalid none)
  let merged ← (merged.merge s.identity declared).mapError BuildFault.conflict
  let root := base ++ "/" ++ s.identity
  let exports? ← match s.manifest.exports? with
    | some v => some <$> relocatedExports s.identity root v
    | none => pure none
  let renamed? := if config.renameVendored then some (renamed version s) else none
  return (merged, ⟨s.identity, s.directory, root, exports?, renamed?⟩)

/-- Plans packages in their order. -/
def planPackages (config : Config) (version base : String) (merged : Dependencies) :
    List SourcePackage → Except BuildFault (Dependencies × List PlannedPackage)
  | [] => return (merged, [])
  | s :: r => do
    let (merged, p) ← planPackage config version base merged s
    let (merged, ps) ← planPackages config version base merged r
    return (merged, p :: ps)

/-- The alias manifest: one record for each package, then one for each that is passed through. -/
def aliasesOf (packages : List PlannedPackage) (passThrough : List String) : AliasManifest :=
  passThrough.foldl (fun m identity => m.insert identity .passThrough)
    (packages.foldl (fun m p => m.insert p.identity p.record) .empty)

/-- The manifest of the host with the version of the build and the merged dependencies. -/
def mergedHost (host : PackageManifest) (version : String) (merged : Dependencies) :
    PackageManifest :=
  merged.ranges.foldl (fun m d => m.setDependency d.1 d.2) (host.setVersion version)

end BuildPlan

/-- Decides a build. -/
def BuildInputs.plan (inputs : BuildInputs) (config : Config) : Except BuildFault BuildPlan := do
  let version ← BuildPlan.syncVersion config inputs.host
  let base ← BuildPlan.vendoredBase config
  let globs ← BuildPlan.compileGlobs config.sourceGlobs
  BuildPlan.checkIdentities [] (config.packages ++ config.passThrough)
  let (merged, packages) ← BuildPlan.planPackages config version base .empty inputs.sources
  let host := BuildPlan.mergedHost inputs.host version merged
  return {
    version
    packages
    passThrough := config.passThrough
    dependencies := merged
    aliases := BuildPlan.aliasesOf packages config.passThrough
    host := host.pin config.internalScope version
    pinned := host.pinnable config.internalScope
    vendoredDir := config.vendoredDir
    aliasManifest := config.aliasManifest
    marker? := config.marker?
    globs }

end Vendoring
