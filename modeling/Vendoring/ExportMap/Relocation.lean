import Vendoring.ExportMap.Basic
import Vendoring.Text

/-!
Moving a package: its targets are made to point into the directory that holds the copy.
-/

namespace Vendoring.ExportMap

/-- The path inside the package that a target names, behind its `./`. Other targets, and those
that climb, name no such path. -/
def inside? (target : String) : Option (List Char) :=
  match Text.after? ['.', '/'] target.toList with
  | some rest => if Text.climbs (String.ofList rest) then none else some rest
  | none => none

/-- Puts `root` in front of a path inside the package. -/
def below (root : String) (rest : List Char) : String :=
  String.ofList (Text.dropTrailing '/' root.toList ++ '/' :: rest)

/-- The target in the copy at `root`. The fault is the target that names no path inside the
package. -/
def relocateTarget (root target : String) : Except String String :=
  match inside? target with
  | some rest => .ok (below root rest)
  | none => .error target

/-- The map of the copy at `root`; all but the targets stays as it is. -/
def relocate (root : String) (m : ExportMap) : Except String ExportMap :=
  m.mapTargets (relocateTarget root)

end Vendoring.ExportMap
