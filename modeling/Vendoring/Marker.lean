import Vendoring.Glob
import Vendoring.Files.Access
import Vendoring.Json.Reader
import Vendoring.Text

/-!
Diagnostic markers: a text in the sources of a package that is replaced in the vendored copy.
-/

namespace Vendoring

structure Marker where
  find : String
  replace : String
  deriving DecidableEq, Repr

namespace Marker

def default : Marker := ⟨"makeLog(\"", "makeLog(\"[VENDORED] "⟩

/-- The source with the marker replaced; none if there is nothing to replace. -/
def replaced? (marker : Marker) (source : String) : Option String :=
  if marker.find = "" ∨ !Text.occursIn marker.find.toList source.toList then none
  else some (String.ofList
    (Text.replaceAll marker.find.toList marker.replace.toList source.toList))

def toJson (marker : Marker) : Json :=
  .object [("find", .string marker.find), ("replace", .string marker.replace)]

/-- A marker that is being read. -/
structure Partial where
  find? : Option String := none
  replace? : Option String := none

def shape : Json.Reader.Shape Partial where
  title := "struct MarkerRewrite"
  slots := [
    .of "find" (Json.Reader.string "a string") (·.find?) (fun m v => { m with find? := some v }),
    .of "replace" (Json.Reader.string "a string")
      (·.replace?) (fun m v => { m with replace? := some v })]
  takesUnknown := true
  takesShort := false

def reader : Json.Reader Marker := fun room d => do
  let m ← shape.fill {} room d
  let find ← Json.Reader.required "find" m.find?
  let replace ← Json.Reader.required "replace" m.replace?
  return ⟨find, replace⟩

variable {m : Type → Type} [Monad m] [Files.FileStore m]

/-- Replaces the marker in one file, and says whether that changed it. Files that are no text stay
as they are. -/
def updateFile (marker : Marker) (p : Path) : ExceptT Files.Fault m Bool := do
  match (String.fromUTF8? (← Files.FileView.contents p)).bind marker.replaced? with
  | some text =>
    Files.FileStore.write p text.toUTF8
    return true
  | none => return false

/-- Replaces the marker in files of some names in a directory, and lists the changed ones. -/
def updateNamed (marker : Marker) (directory : Path) :
    List String → ExceptT Files.Fault m (List String)
  | [] => return []
  | name :: rest => do
    let changed ← marker.updateFile (directory.join name)
    let others ← marker.updateNamed directory rest
    return if changed then name :: others else others

/-- Replaces the marker in the files that stand in a directory itself and have a name that one of
the globs fits. The changed files come in the order of their names. -/
def updateFiles (marker : Marker) (globs : List Glob) (directory : Path) :
    ExceptT Files.Fault m (List Path) := do
  let entries ← Files.FileView.listing directory
  let wanted := entries.filter fun e => e.2 = .file && globs.any (·.fits e.1)
  let changed ← marker.updateNamed directory (wanted.map (·.1))
  return (Text.sortByName id changed).map directory.join

end Marker

end Vendoring
