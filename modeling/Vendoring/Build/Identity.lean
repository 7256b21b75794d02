import Vendoring.Text

/-!
Package identities as names of directories.
-/

namespace Vendoring.Identity

/-- A segment that is the name of one directory on every system. -/
def isPlain (segment : List Char) : Bool :=
  segment ≠ [] && segment ≠ ['.'] && segment ≠ ['.', '.'] &&
    !segment.contains '\\' && !segment.contains ':'

/-- An identity is `name` or `@scope/name`. -/
def hasShape : List (List Char) → Bool
  | [name] => name.head? ≠ some '@'
  | [scope, _] => 1 < scope.length && scope.head? = some '@'
  | _ => false

/-- Whether an identity can be vendored: its copy has a place of its own below any directory. -/
def isValid (identity : String) : Bool :=
  let segments := Text.segments identity
  hasShape segments && segments.all isPlain

/-- The name of a vendored copy that is published on its own. -/
def vendoredName (identity : String) : String :=
  let bare := (Text.after? ['@'] identity.toList).getD identity.toList
  String.ofList (Text.replaceFirst '/' ['-'] bare) ++ "-vendored"

end Vendoring.Identity
