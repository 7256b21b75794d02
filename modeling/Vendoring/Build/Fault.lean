import Vendoring.Dependencies
import Vendoring.ExportMap.Document
import Vendoring.Files.Fault
import Vendoring.Glob
import Vendoring.PackageManifest
import Vendoring.Version

/-!
Why a build fails. A fault names its cause; the code that programs go by and the message that people
read are made from it.
-/

namespace Vendoring

inductive BuildFault
  | conflict (c : Dependencies.Conflict)
  | manifestMissing (path : Path)
  | manifestUnreadable (path : Path) (cause : Files.Fault)
  | manifestInvalid (path? : Option Path) (cause : PackageManifest.Fault)
  | exportsInvalid (identity : String) (cause : ExportMap.Fault)
  | exportTargetInvalid (identity target : String)
  | versionInvalid (version : String) (cause : Version.Fault)
  | versionMissing
  | identityInvalid (identity : String)
  | identityRepeated (identity : String)
  | vendoredDirInvalid (path : Path)
  | aliasManifestInvalid (path : Path)
  | globInvalid (glob : String) (cause : Glob.Fault)
  | stagingFailed (path : Path) (cause : Files.Fault)
  | copyFailed (identity : String) (source : Path) (cause : Files.Fault)
  | markersFailed (identity : String) (cause : Files.Fault)
  | writeFailed (path : Path) (cause : Files.Fault)
  /-- The previous tree cannot be moved out of the way. -/
  | asideFailed (path : Path) (cause : Files.Fault)
  /-- The new tree cannot be moved into place. -/
  | placeFailed (cause : Files.Fault)
  deriving DecidableEq, Repr

namespace BuildFault

def code : BuildFault → String
  | conflict _ => "VEND_DEP_VERSION_CONFLICT"
  | manifestMissing _ => "VEND_MANIFEST_NOT_FOUND"
  | manifestUnreadable .. | manifestInvalid .. | exportsInvalid .. => "VEND_MANIFEST_INVALID"
  | exportTargetInvalid .. => "VEND_EXPORT_TARGET_INVALID"
  | versionInvalid .. => "VEND_VERSION_INVALID"
  | versionMissing | identityInvalid _ | identityRepeated _ | vendoredDirInvalid _
  | aliasManifestInvalid _ | globInvalid .. => "VEND_CONFIG_INVALID"
  | stagingFailed .. | copyFailed .. => "VEND_COPY_FAILED"
  | markersFailed .. | writeFailed .. | asideFailed .. | placeFailed _ => "VEND_WRITE_FAILED"

def message : BuildFault → String
  | conflict c => c.message
  | manifestMissing p => s!"package.json not found: {p.text}"
  | manifestUnreadable p cause => s!"{p.text}: {cause.message}"
  | manifestInvalid (some p) cause => s!"{p.text}: {cause.message}"
  | manifestInvalid none cause => cause.message
  | exportsInvalid identity cause => s!"{identity}: {cause.message}"
  | exportTargetInvalid identity target =>
    s!"export target '{target}' of {identity} must be a './' path inside the package"
  | versionInvalid version cause => s!"'{version}' is not a valid version: {cause.message}"
  | versionMissing => "no version configured and the host package.json has none"
  | identityInvalid identity =>
    s!"'{identity}' is not a valid package identity (expected 'name' or '@scope/name')"
  | identityRepeated identity =>
    s!"'{identity}' is listed more than once across packages and passThrough"
  | vendoredDirInvalid p =>
    s!"vendoredDir must be a relative path below the host package, got '{p.text}'"
  | aliasManifestInvalid p =>
    s!"aliasManifest must be a relative file path below the host package, got '{p.text}'"
  | globInvalid glob cause => s!"bad source glob '{glob}': {cause.message}"
  | stagingFailed p cause =>
    s!"cannot create staging directory: {cause.message} at path {Text.quoted p.text}"
  | copyFailed identity source cause => s!"{identity} from {source.text}: {cause.message}"
  | markersFailed identity cause => s!"{identity}: {cause.message}"
  | writeFailed p cause => s!"{p.text}: {cause.message}"
  | asideFailed p cause => s!"cannot move {p.text} aside: {cause.message}"
  | placeFailed cause => s!"cannot move vendored tree into place: {cause.message}"

end BuildFault

end Vendoring
