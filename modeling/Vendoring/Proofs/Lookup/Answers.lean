import Vendoring.Proofs.Files.Canonical
import Vendoring.Proofs.Lookup.Search

/-! What a lookup gives is a file, and what it tells where it fails is true. -/
namespace Vendoring.Lookup
open Files

variable {d : Disk} {extensions conditions : List String} {dirs : List Path} {identity : String}
  {importer : Importer} {spec : String} {s without : Search} {p : Path} {t : Sight}
  {withPackage : Json → Search}

/-- A `package.json` that was read is there, and a package is looked for in the `node_modules` of
one of the directories. -/
def Sight.Attested (d : Disk) (dirs : List Path) (identity : String) : Sight → Prop
  | candidate _ => True
  | manifest directory => d.kind (directory.join "package.json") = .ok .file
  | package p => ∃ dir ∈ dirs, p = packagePath dir identity

namespace Search

def Attested (d : Disk) (dirs : List Path) (identity : String) (s : Search) : Prop :=
  ∀ t ∈ s.sights, t.Attested d dirs identity

theorem Attested.behind {before : List Sight} (h : s.Attested d dirs identity)
    (hb : ∀ t ∈ before, t.Attested d dirs identity) :
    (s.behind before).Attested d dirs identity := by
  intro t ht
  rcases List.mem_append.1 ht with ht | ht
  · exact hb t ht
  · exact h t ht

end Search

end Vendoring.Lookup
