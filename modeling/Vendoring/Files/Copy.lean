import Vendoring.Files.Access
import Vendoring.Text

/-!
Copying a tree. Links are followed, so that the copy holds what they point to; directories of
certain names are left out.
-/

namespace Vendoring.Files

/-- How much longer the paths of a walk may get. -/
def roomBelow (p : Path) : Nat := pathLimit - p.text.utf8ByteSize

/-- A directory that a walk is inside of: its path in the walk, and its place. -/
structure Above where
  path : Path
  place : Path

variable {m : Type → Type} [Monad m] [FileStore m]

/-- Copies the contents of a file. The target is emptied before the source is read again, so a
file that is copied onto itself ends up empty. -/
def copyFile (source target : Path) : ExceptT Fault m Unit := do
  let _ ← FileView.contents source
  FileStore.write target ByteArray.empty
  FileStore.write target (← FileView.contents source)

/-- Does something at a path of a walk; a fault tells the path. -/
def visiting {α : Type} (p : Path) (x : ExceptT Fault m α) : ExceptT Fault m α :=
  ExceptT.adapt (Fault.walking p) x

/-- What a link leads to. A link to a directory that the walk is inside of is a loop. -/
def follow (above : List Above) (p : Path) : ExceptT Fault m Kind := do
  let kind ← visiting p (FileView.kind p)
  if kind = .directory then
    let place ← FileView.place p
    match above.find? (·.place = place) with
    | some a => throw (.loop p a.path)
    | none => return kind
  else return kind

/-- The entries of a directory in the order of their names. -/
def sortedListing (p : Path) : ExceptT Fault m (List (String × Kind)) := do
  return Text.sortByName (·.1) (← visiting p (FileView.listing p))

/-- Enters a directory: it becomes one of those that the walk is inside of. -/
def enter (above : List Above) (p : Path) : ExceptT Fault m (List Above) := do
  return ⟨p, ← FileView.place p⟩ :: above

/-- Copies an entry of the directory `source` into the directory `target`, and counts the files. A
directory is listed before it is made at the target; `descend` copies what it holds. -/
def copyEntry (skipped : List String)
    (descend : List Above → Path → Path → List (String × Kind) → ExceptT Fault m Nat)
    (above : List Above) (source target : Path) (entry : String × Kind) : ExceptT Fault m Nat := do
  let from_ := source.join entry.1
  let to_ := target.join entry.1
  let kind ← if entry.2 = .link then follow above from_ else pure entry.2
  if kind = .directory then
    if entry.1 ∈ skipped then return 0
    let entries ← attempt (sortedListing from_)
    makeDirectories to_
    let entries ← ExceptT.mk (pure entries)
    descend (← enter above from_) from_ to_ entries
  else
    copyFile from_ to_
    return 1

/-- Copies entries one after the other. -/
def copyEach (skipped : List String)
    (descend : List Above → Path → Path → List (String × Kind) → ExceptT Fault m Nat)
    (above : List Above) (source target : Path) :
    List (String × Kind) → ExceptT Fault m Nat
  | [] => return 0
  | entry :: rest => do
    let copied ← copyEntry skipped descend above source target entry
    return copied + (← copyEach skipped descend above source target rest)

/-- Copies entries and what they hold, down to a depth. -/
def copyEntries (skipped : List String) : (depth : Nat) → List Above → Path → Path →
    List (String × Kind) → ExceptT Fault m Nat
  | 0 => copyEach skipped fun _ p _ _ => throw (.walking p .nameTooLong)
  | depth + 1 => copyEach skipped (copyEntries skipped depth)

/-- Copies what the directory `source` holds into the directory `target`, which is made, and
counts the files. Paths grow longer on the way down, so the walk ends even if it goes on into its
own copy. -/
def copyTree (skipped : List String) (source target : Path) : ExceptT Fault m Nat := do
  makeDirectories target
  if (← visiting source (FileView.kind source)) = .directory then
    copyEntries skipped (roomBelow source) (← enter [] source) source target
      (← sortedListing source)
  else return 0

end Vendoring.Files
