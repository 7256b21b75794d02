import Vendoring.Files.Fault

/-!
What a program may ask of a file system and what it may do to it. Programs are written against
these two interfaces, so that one text of them runs on a disk that is a value and on a real one.
-/

namespace Vendoring.Files

/-- The bytes of the longest path. -/
def pathLimit : Nat := 4095

inductive Kind
  | file
  | directory
  | link
  deriving DecidableEq, Repr

/-- Questions. They follow links, but for the kinds in a listing. -/
class FileView (m : Type → Type) where
  kind : Path → ExceptT Fault m Kind
  contents : Path → ExceptT Fault m ByteArray
  /-- Tells whether paths lead to the same place. -/
  place : Path → ExceptT Fault m Path
  /-- The one absolute path of a place that passes through no links. The system is asked for every
  part of it that is passed, and that may be too long for a path. -/
  canonical : Path → ExceptT Fault m Path
  listing : Path → ExceptT Fault m (List (String × Kind))

/-- Changes. What cannot be done as things stand is not done at all; only a tree may be emptied
although it cannot be removed itself. What the system refuses may have begun: a file that was to be
written may be there with a first part of its bytes, and a tree that was to be removed may have lost
some of what it holds. -/
class FileStore (m : Type → Type) extends FileView m where
  makeDirectory : Path → ExceptT Fault m Unit
  write : Path → ByteArray → ExceptT Fault m Unit
  /-- Moves a file, a link or a tree, over what stands at the target if that can be replaced. -/
  rename (source target : Path) : ExceptT Fault m Unit
  removeFile : Path → ExceptT Fault m Unit
  removeTree : Path → ExceptT Fault m Unit

variable {m : Type → Type} [Monad m]

/-- Does what can fail, and goes on with how it ended. -/
def attempt {ε ε' α : Type} (x : ExceptT ε m α) : ExceptT ε' m (Except ε α) := ExceptT.lift x.run

section View
variable [FileView m]

def isFile (p : Path) : m Bool := do
  match ← (FileView.kind p).run with
  | .ok .file => return true
  | _ => return false

def isDirectory (p : Path) : m Bool := do
  match ← (FileView.kind p).run with
  | .ok .directory => return true
  | _ => return false

/-- The canonical path if the system gives one, or else the path as it is. -/
def canonicalOrSame (p : Path) : m Path := do
  match ← (FileView.canonical p).run with
  | .ok q => return q
  | .error _ => return p

def readText (p : Path) : ExceptT Fault m String := do
  match String.fromUTF8? (← FileView.contents p) with
  | some s => return s
  | none => throw .notText

end View

section Store
variable [FileStore m]

/-- Makes the first of a path and its parents, and the parents it needs before it. -/
def makeFirst : List Path → ExceptT Fault m Unit
  | [] => return
  | p :: parents => do
    if p.text = "" ∨ parents = [] then return
    match ← attempt (FileStore.makeDirectory p) with
    | .ok () => return
    | .error .notFound =>
      makeFirst parents
      match ← attempt (FileStore.makeDirectory p) with
      | .ok () => return
      | .error e => unless ← (isDirectory p : m Bool) do throw e
    | .error e => unless ← (isDirectory p : m Bool) do throw e

/-- Makes sure that a path is a directory. -/
def makeDirectories (p : Path) : ExceptT Fault m Unit := makeFirst p.ancestors

/-- Removes a tree if it is there. -/
def removeTreeIfThere (p : Path) : ExceptT Fault m Unit := do
  match ← attempt (FileStore.removeTree p) with
  | .error .notFound => return
  | .error e => throw e
  | .ok () => return

end Store

end Vendoring.Files
