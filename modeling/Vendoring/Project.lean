import Vendoring.Alias.Registry
import Vendoring.Config
import Vendoring.PackageManifest

/-!
Projects: the host package that a directory belongs to, with its configuration and its aliases.
-/

namespace Vendoring.Project
variable {m : Type → Type} [Monad m] [Files.FileView m]

/-- The first of some directories that holds a package manifest. -/
def firstPackage : List Path → m (Option Path)
  | [] => return none
  | p :: r => do
    if ← Files.isFile (p.join PackageManifest.fileName) then return some p else firstPackage r

/-- The nearest package that `start` lies in, going up the path as it is written. -/
def root? (start : Path) : m (Option Path) := firstPackage start.ancestors

/-- The configuration of a project, or the default one if it has none. -/
def config (root : Path) : ExceptT Config.Fault m Config := do
  if ← (Files.isFile (root.join Config.fileName) : m Bool) then Config.load root
  else return .default

/-- Where the alias manifest of a project is, and the registry made from it. A project that was
never built has no manifest and no aliases. -/
def registry (root : Path) (c : Config) :
    ExceptT AliasManifest.Fault m (Path × AliasRegistry) := do
  let p := root.join c.aliasManifest.text
  if ← (Files.isFile p : m Bool) then return (p, ← AliasRegistry.empty.addFile p)
  else return (p, .empty)

end Vendoring.Project
