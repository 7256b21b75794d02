import Vendoring.Build.Apply
import Vendoring.Redirect.Resolution

/-!
The documents that the commands print for other programs.
-/

namespace Vendoring

/-- Names and texts as the fields of an object. -/
def Json.textFields (entries : List (String × String)) : Json :=
  .object (entries.map fun e => (e.1, .string e.2))

def PackageReport.toJson (r : PackageReport) : Json :=
  .object [("identity", .string r.identity), ("kind", .string r.kind.name),
    ("vendored_root", .string r.vendoredRoot), ("files_copied", .int r.filesCopied),
    ("markers_rewritten", .int r.markersReplaced)]

/-- The fields of a report, in their order. -/
def BuildReport.fields (r : BuildReport) : List (String × Json) :=
  [("schema_version", .int buildSchema), ("version", .string r.version),
    ("vendored_dir", .string r.vendoredDir.text),
    ("alias_manifest", .string r.aliasManifest.text),
    ("packages", .array (r.packages.map PackageReport.toJson)),
    ("pass_through", Json.strings r.passThrough),
    ("dependencies", Json.textFields r.dependencies), ("pinned", Json.strings r.pinned)]

def PlannedPackage.toJson (p : PlannedPackage) : Json :=
  .object [("identity", .string p.identity), ("kind", .string p.kind.name),
    ("vendored_root", .string p.vendoredRoot), ("source_dir", .string p.source.text)]

/-- The fields of a plan that is printed instead of being carried out. -/
def BuildPlan.fields (p : BuildPlan) : List (String × Json) :=
  [("schema_version", .int buildSchema), ("dry_run", .bool true), ("version", .string p.version),
    ("packages", .array (p.packages.map PlannedPackage.toJson)),
    ("pass_through", Json.strings p.passThrough),
    ("dependencies", Json.textFields p.dependencies.ranges),
    ("pinned", Json.strings p.pinned), ("aliases", p.aliases.toJson)]

def Json.orNull : Option Json → Json := (·.getD .null)

def AliasEntry.toJson (e : AliasEntry) : Json :=
  .object [("identity", .string e.identity), ("kind", .string e.kind.name),
    ("vendored_root", Json.orNull (e.root?.map .string)),
    ("exports", Json.orNull (e.exports?.map (·.toJson)))]

/-- The document of a trace. -/
def TraceStep.document (steps : List TraceStep) : Json :=
  .object [("schema_version", .int traceSchema), ("steps", .array (steps.map TraceStep.toJson))]

end Vendoring
