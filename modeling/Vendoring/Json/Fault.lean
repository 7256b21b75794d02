/-!
What can be wrong with a JSON text that is read for a purpose.
-/

namespace Vendoring.Json

inductive Fault
  /-- The text is not JSON, is nested too deeply, or holds a number without a double. -/
  | malformed
  | mismatch (found expected : String)
  | outOfRange (n : Int) (expected : String)
  | wrongLength (length : Nat) (expected : String)
  | unknownField (name : String) (known : List String)
  | missingField (name : String)
  | repeatedField (name : String)
  /-- A value has none of the shapes of the kind `kind`. -/
  | noShape (kind : String)
  deriving DecidableEq, Repr

def Fault.message : Fault → String
  | malformed => "<syntax>"
  | mismatch found expected => s!"invalid type: {found}, expected {expected}"
  | outOfRange n expected => s!"invalid value: integer `{n}`, expected {expected}"
  | wrongLength length expected => s!"invalid length {length}, expected {expected}"
  | unknownField name known =>
    s!"unknown field `{name}`, expected one of " ++
      String.intercalate ", " (known.map fun k => "`" ++ k ++ "`")
  | missingField name => s!"missing field `{name}`"
  | repeatedField name => s!"duplicate field `{name}`"
  | noShape kind => s!"data did not match any variant of {kind}"

end Vendoring.Json
