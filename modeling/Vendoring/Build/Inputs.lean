import Vendoring.Build.Plan

/-!
Reading the manifests that a plan is made from.
-/

namespace Vendoring
variable {m : Type → Type} [Monad m] [Files.FileView m]

/-- Reads the manifest of the package in a directory. -/
def PackageManifest.load (directory : Path) : ExceptT BuildFault m PackageManifest := do
  let p := directory.join PackageManifest.fileName
  match ← Files.attempt (Files.readText p) with
  | .error .notFound => throw (.manifestMissing p)
  | .error cause => throw (.manifestUnreadable p cause)
  | .ok text =>
    match PackageManifest.parse text with
    | .ok manifest => return manifest
    | .error cause => throw (.manifestInvalid (some p) cause)

namespace BuildInputs

/-- Reads the package of an identity below the directory of all sources. -/
def loadSource (sourceRoot : Path) (identity : String) : ExceptT BuildFault m SourcePackage := do
  ExceptT.mk (pure (BuildPlan.checkIdentity identity))
  let directory := sourceRoot.join identity
  return ⟨identity, directory, ← PackageManifest.load directory⟩

def loadSources (sourceRoot : Path) :
    List String → ExceptT BuildFault m (List SourcePackage)
  | [] => return []
  | identity :: r => do
    let s ← loadSource sourceRoot identity
    return s :: (← loadSources sourceRoot r)

/-- Reads the manifests of the host and of all packages that are configured. -/
def load (host : Path) (config : Config) : ExceptT BuildFault m BuildInputs := do
  let manifest ← PackageManifest.load host
  return ⟨manifest, ← loadSources (host.join config.sourceRoot.text) config.packages⟩

end BuildInputs

end Vendoring
