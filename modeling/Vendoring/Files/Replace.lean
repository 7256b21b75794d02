import Vendoring.Files.Access

/-!
Replacing a file in one step: the new contents are written beside it and then take its place, so
that a reader finds the old file or the new one.
-/

namespace Vendoring.Files

/-- Names that one run may use for files of its own. -/
structure Scratch where
  /-- Tells this run from others that are still going on. -/
  tag : String
  /-- A part of a name that nothing else has. -/
  fresh : String
  deriving DecidableEq, Repr

/-- Where the new contents of a file are written first. -/
def Scratch.beside (scratch : Scratch) (p : Path) : Path :=
  p.directory.join ("." ++ p.fileName?.getD "file" ++ ".tmp." ++ scratch.tag)

variable {m : Type → Type} [Monad m] [FileStore m]

/-- Moves the written contents into place. If that fails, they are removed. -/
def publish (written target : Path) : ExceptT Fault m Unit := do
  match ← attempt (FileStore.rename written target) with
  | .ok () => return
  | .error e =>
    let _ ← attempt (FileStore.removeFile written)
    throw e

/-- Makes `bytes` the contents of the file at `p`, and the directories above it if need be. -/
def replaceFile (scratch : Scratch) (p : Path) (bytes : ByteArray) : ExceptT Fault m Unit := do
  makeDirectories p.directory
  let written := scratch.beside p
  FileStore.write written bytes
  publish written p

def replaceText (scratch : Scratch) (p : Path) (text : String) : ExceptT Fault m Unit :=
  replaceFile scratch p text.toUTF8

end Vendoring.Files
