import Vendoring.Keyed
import Vendoring.Text
import Vendoring.Text.Quoted
import Vendoring.Decimal.Layout
import Vendoring.Json.Reader
import Vendoring.Json.Printer
import Vendoring.Specifier
import Vendoring.Path
import Vendoring.ExportMap.Lookup
import Vendoring.ExportMap.Document
import Vendoring.ExportMap.Relocation
import Vendoring.Files.Disk
import Vendoring.Redirect.Resolution
import Vendoring.Alias.Registry
import Vendoring.Files.Replace
import Vendoring.Files.Copy
import Vendoring.Marker
import Vendoring.Version
import Vendoring.Dependencies
import Vendoring.PackageManifest
import Vendoring.Config
import Vendoring.Build.Apply
import Vendoring.Command.Run
import Vendoring.Main
import Vendoring.Proofs.Build.Plan
import Vendoring.Proofs.ExportMap.Mapping
import Vendoring.Proofs.ExportMap.Pattern
import Vendoring.Proofs.ExportMap.Relocation
import Vendoring.Proofs.Build.Exports
import Vendoring.Proofs.Build.Places
import Vendoring.Proofs.Json.Word
import Vendoring.Proofs.Json.Writing
import Vendoring.Proofs.Json.Drafting
import Vendoring.Proofs.Json.Reading
import Vendoring.Proofs.ExportMap.Document
import Vendoring.Proofs.Alias.Manifest
import Vendoring.Proofs.Build.Aliases
import Vendoring.Proofs.Build.Undoing
import Vendoring.Proofs.Build.Redirects
import Vendoring.Proofs.Alias.Registry
import Vendoring.Proofs.ExportMap.Targets
import Vendoring.Proofs.Lookup
import Vendoring.Proofs.Files.Passing
import Vendoring.Proofs.Files.Worked
import Vendoring.Proofs.Build.Completing
import Vendoring.Proofs.Build.Course
import Vendoring.Proofs.Build.Inputs
import Vendoring.Proofs.Build.Manifests
import Vendoring.Proofs.Build.Touching
import Vendoring.Proofs.Build.Sources
import Vendoring.Proofs.Files.Distinct
import Vendoring.Proofs.Files.Seeing
import Vendoring.Proofs.Files.Making
import Vendoring.Proofs.Files.Mirroring
import Vendoring.Proofs.Build.Copies
import Vendoring.Proofs.Build.Contents
import Vendoring.Proofs.Redirect.Chain
import Vendoring.Proofs.Redirect.Trace
import Vendoring.Proofs.Redirect.Locality
import Vendoring.Proofs.PackageManifest
import Vendoring.Proofs.Version
import Vendoring.Proofs.Build.Replanning
import Vendoring.Proofs.Dependencies
import Vendoring.Proofs.Build.Separation
import Vendoring.Proofs.Alias.Loading
import Vendoring.Proofs.ExportMap.Reordering
import Vendoring.Proofs.ExportMap.Seams
import Vendoring.Proofs.ExportMap.Containment
import Vendoring.Proofs.Alias.Anchor
import Vendoring.Proofs.Build.Host
import Vendoring.Proofs.Dependencies.History
import Vendoring.Proofs.ExportMap.Normalization
import Vendoring.Proofs.Lookup.Answers
import Vendoring.Proofs.Lookup.Directories
import Vendoring.Proofs.Lookup.Layout
import Vendoring.Proofs.Lookup.Ascent
import Vendoring.Proofs.Text.Occurrences
import Vendoring.Proofs.Marker
import Vendoring.Proofs.Marker.Directory
import Vendoring.Proofs.PackageManifest.Editing
import Vendoring.Proofs.Files.Atomic
