import Vendoring.Alias.Entry
import Vendoring.Alias.Manifest

/-!
The registry of alias entries, one for each package. Of several entries for a package the last one
counts.
-/

namespace Vendoring

structure AliasRegistry where
  entries : Keyed AliasEntry

def AliasRecord.toEntry (r : AliasRecord) (identity : String) (anchor? : Option Path) :
    AliasEntry :=
  ⟨identity, r.root?, r.exports?, anchor?⟩

def AliasEntry.toRecord (e : AliasEntry) : AliasRecord := ⟨e.root?, e.exports?⟩

namespace AliasRegistry

def empty : AliasRegistry := ⟨[]⟩

def lookup? (r : AliasRegistry) (identity : String) : Option AliasEntry :=
  r.entries.get? identity

/-- The entries in the order in which their packages were first given. -/
def toList (r : AliasRegistry) : List AliasEntry := r.entries.values

def insert (r : AliasRegistry) (e : AliasEntry) : AliasRegistry :=
  ⟨r.entries.insert e.identity e⟩

/-- Adds the entries of a manifest whose relative paths start from `anchor?`. -/
def addManifest (r : AliasRegistry) (m : AliasManifest) (anchor? : Option Path) : AliasRegistry :=
  m.aliases.foldl (fun r e => r.insert (e.2.toEntry e.1 anchor?)) r

def ofManifest (m : AliasManifest) (anchor? : Option Path) : AliasRegistry :=
  empty.addManifest m anchor?

/-- The document with all entries; anchors are no part of it. -/
def toManifest (r : AliasRegistry) : AliasManifest :=
  r.toList.foldl (fun m e => m.insert e.identity e.toRecord) .empty

variable {m : Type → Type} [Monad m] [Files.FileView m]

/-- Adds the entries of a manifest file, anchored at its directory. -/
def addFile (r : AliasRegistry) (p : Path) : ExceptT AliasManifest.Fault m AliasRegistry := do
  let manifest ← AliasManifest.load p
  let anchor ← (Files.canonicalOrSame p.directory : m Path)
  return r.addManifest manifest (some anchor)

end AliasRegistry

end Vendoring
