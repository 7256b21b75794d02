import Vendoring.Build.Inputs
import Vendoring.Files.Copy

/-!
Carrying out a plan. The packages are copied into a staging directory, which then takes the place
of the vendored directory. The previous tree is kept aside until both manifests are written, and is
put back if one of them cannot be.
-/

namespace Vendoring

structure PackageReport where
  identity : String
  kind : AliasKind
  vendoredRoot : String
  filesCopied : Nat
  markersReplaced : Nat
  deriving DecidableEq, Repr

structure BuildReport where
  version : String
  vendoredDir : Path
  aliasManifest : Path
  packages : List PackageReport
  passThrough : List String
  /-- The merged dependencies and their ranges. -/
  dependencies : List (String × String)
  pinned : List String
  deriving DecidableEq, Repr

/-- The version of the document that holds a report. -/
def buildSchema : Nat := 1

namespace BuildPlan
open Files (attempt)

/-- The directories that are never copied. -/
def skippedDirectories : List String := ["node_modules"]

/-- What a build replaces, as long as it may have to be put back. -/
structure Previous where
  /-- A directory of the host that holds it. -/
  holding : Path
  /-- The previous tree, inside of the holding directory. -/
  tree? : Option Path
  /-- The previous contents of the alias manifest. -/
  aliases? : Option ByteArray

def aliasPath (plan : BuildPlan) (host : Path) : Path := host.join plan.aliasManifest.text

def vendoredPath (plan : BuildPlan) (host : Path) : Path := host.join plan.vendoredDir.text

def manifestPath (host : Path) : Path := host.join PackageManifest.fileName

def stagingPath (scratch : Files.Scratch) (host : Path) : Path :=
  host.join (".vend-staging-" ++ scratch.fresh)

def holdingPath (scratch : Files.Scratch) (host : Path) : Path :=
  host.join (".vend-previous-" ++ scratch.tag)

variable {m : Type → Type} [Monad m] [Files.FileStore m]

/-- Makes the directories that the alias manifest and the vendored directory stand in. -/
def prepareParents (plan : BuildPlan) (host : Path) : ExceptT BuildFault m Unit := do
  for p in [(plan.aliasPath host).parent?, (plan.vendoredPath host).parent?] do
    if let some p := p then
      ExceptT.adapt (BuildFault.writeFailed p) (Files.makeDirectories p)

/-- Copies one package into the staging directory. -/
def stage (plan : BuildPlan) (scratch : Files.Scratch) (staging : Path) (p : PlannedPackage) :
    ExceptT BuildFault m PackageReport := do
  let target := staging.join p.identity
  let copied ← ExceptT.adapt (BuildFault.copyFailed p.identity p.source)
    (Files.copyTree skippedDirectories p.source target)
  let replaced ← match plan.marker? with
    | some marker =>
      List.length <$> ExceptT.adapt (BuildFault.markersFailed p.identity)
        (marker.updateFiles plan.globs target)
    | none => pure 0
  if let some manifest := p.renamed? then
    ExceptT.adapt (BuildFault.writeFailed (manifestPath target)) (manifest.save scratch target)
  return ⟨p.identity, p.kind, p.vendoredRoot, copied, replaced⟩

def stageAll (plan : BuildPlan) (scratch : Files.Scratch) (staging : Path) :
    List PlannedPackage → ExceptT BuildFault m (List PackageReport)
  | [] => return []
  | p :: r => do
    let report ← plan.stage scratch staging p
    return report :: (← plan.stageAll scratch staging r)

/-- Makes an empty holding directory, and keeps the contents of the alias manifest. -/
def hold (scratch : Files.Scratch) (host aliasPath : Path) : ExceptT BuildFault m Previous := do
  let holding := holdingPath scratch host
  ExceptT.adapt (BuildFault.writeFailed holding) do
    Files.removeTreeIfThere holding
    Files.FileStore.makeDirectory holding
  let aliases ← attempt (Files.FileView.contents aliasPath)
  return ⟨holding, none, aliases.toOption⟩

/-- Removes the holding directory, if that can be done. -/
def discard (previous : Previous) : ExceptT BuildFault m Unit := do
  let _ ← attempt (Files.removeTreeIfThere previous.holding)

/-- Moves the previous tree back to its place. -/
def moveBack (previous : Previous) (vendored : Path) : ExceptT Files.Fault m Unit :=
  match previous.tree? with
  | some tree => Files.FileStore.rename tree vendored
  | none => return

/-- Moves the previous tree into the holding directory. -/
def setAside (previous : Previous) (vendored : Path) : ExceptT BuildFault m Previous := do
  let aside := previous.holding.join "vendored"
  match ← attempt (Files.FileStore.rename vendored aside) with
  | .ok () => return { previous with tree? := some aside }
  | .error .notFound => return previous
  | .error cause =>
    discard previous
    throw (.asideFailed vendored cause)

/-- Moves the staged tree into the place of the vendored one. -/
def swapIn (staged vendored : Path) (previous : Previous) : ExceptT BuildFault m Previous := do
  let previous ← setAside previous vendored
  match ← attempt (Files.FileStore.rename staged vendored) with
  | .ok () => return previous
  | .error cause =>
    if let .ok () ← attempt (moveBack previous vendored) then discard previous
    throw (.placeFailed cause)

/-- Puts back the alias manifest and the previous tree, as far as that can be done. The holding
directory stays if the tree cannot be moved. -/
def restore (scratch : Files.Scratch) (previous : Previous) (vendored aliasPath : Path) :
    ExceptT BuildFault m Unit := do
  let _ ← attempt (match previous.aliases? with
    | some bytes => Files.replaceFile scratch aliasPath bytes
    | none => Files.FileStore.removeFile aliasPath)
  let moved ← attempt do
    Files.removeTreeIfThere vendored
    moveBack previous vendored
  if let .ok () := moved then discard previous

/-- Writes the alias manifest and then the manifest of the host. -/
def publish (plan : BuildPlan) (scratch : Files.Scratch) (host : Path) :
    ExceptT BuildFault m Unit := do
  let aliasPath := plan.aliasPath host
  ExceptT.adapt (BuildFault.writeFailed aliasPath)
    (Files.replaceText scratch aliasPath plan.aliases.text)
  ExceptT.adapt (BuildFault.writeFailed (manifestPath host)) (plan.host.save scratch host)

/-- Copies all packages, and puts the copies and both manifests into place. -/
def applyStaged (plan : BuildPlan) (scratch : Files.Scratch) (host staging : Path) :
    ExceptT BuildFault m (List PackageReport) := do
  let reports ← plan.stageAll scratch staging plan.packages
  let vendored := plan.vendoredPath host
  let aliasPath := plan.aliasPath host
  let previous ← swapIn staging vendored (← hold scratch host aliasPath)
  match ← attempt (plan.publish scratch host) with
  | .ok () => discard previous
  | .error e =>
    restore scratch previous vendored aliasPath
    throw e
  return reports

/-- Works with a staging directory, and removes what is left of it in the end. -/
def withStaging {α : Type} (scratch : Files.Scratch) (host : Path)
    (work : Path → ExceptT BuildFault m α) : ExceptT BuildFault m α := do
  let staging := stagingPath scratch host
  ExceptT.adapt (BuildFault.stagingFailed staging) (Files.FileStore.makeDirectory staging)
  let result ← attempt (work staging)
  let _ ← attempt (Files.FileStore.removeTree staging)
  ExceptT.mk (pure result)

/-- Carries out a plan in the host package at `host`. -/
def apply (plan : BuildPlan) (scratch : Files.Scratch) (host : Path) :
    ExceptT BuildFault m BuildReport := do
  plan.prepareParents host
  let reports ← withStaging scratch host (plan.applyStaged scratch host)
  return {
    version := plan.version
    vendoredDir := plan.vendoredPath host
    aliasManifest := plan.aliasPath host
    packages := reports
    passThrough := plan.passThrough
    dependencies := plan.dependencies.ranges
    pinned := plan.pinned }

end BuildPlan

variable {m : Type → Type} [Monad m] [Files.FileStore m]

/-- Reads, plans and carries out. -/
def build (scratch : Files.Scratch) (host : Path) (config : Config) :
    ExceptT BuildFault m BuildReport := do
  let inputs ← BuildInputs.load host config
  let plan ← ExceptT.mk (pure (inputs.plan config))
  plan.apply scratch host

end Vendoring
