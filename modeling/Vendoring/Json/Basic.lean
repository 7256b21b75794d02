import Vendoring.Keyed
import Vendoring.Decimal.Double

/-!
JSON values. An object keeps its fields in the order in which their names were first given.
-/

namespace Vendoring

inductive Json
  | null
  | bool (b : Bool)
  | int (n : Int)
  | double (x : Double)
  | string (s : String)
  | array (items : List Json)
  | object (fields : List (String × Json))

namespace Json

/-- The name of a value's kind in messages. -/
def kind : Json → String
  | null => "null"
  | bool _ => "boolean"
  | int _ | double _ => "number"
  | string _ => "string"
  | array _ => "array"
  | object _ => "object"

def string? : Json → Option String
  | string s => some s
  | _ => none

def object? : Json → Option (List (String × Json))
  | object fields => some fields
  | _ => none

def isNull : Json → Bool
  | null => true
  | _ => false

/-- The value of a field of an object. -/
def field? (v : Json) (name : String) : Option Json :=
  v.object?.bind fun fields => Keyed.get? fields name

def strings (items : List String) : Json := array (items.map string)

end Json

end Vendoring
