import Vendoring.ExportMap.Basic
import Vendoring.Json.Reader

/-!
Export maps in documents. A package may shorten its map: a single target or a choice stands for
the package itself. An alias manifest holds maps in full.
-/

namespace Vendoring.ExportMap

/-- Why a value is no export map. -/
inductive Fault
  /-- A value that is neither a target nor a choice, and the keys that lead to it. -/
  | wrongKind (place found : String)
  | mixedKeys
  deriving DecidableEq, Repr

def Fault.message : Fault → String
  | wrongKind place found =>
    s!"invalid exports value at '{place}': expected string or object, got {found}"
  | mixedKeys => "exports object mixes subpath keys and condition keys"

mutual

/-- The node that a value stands for; `place` says where it was found. -/
def Node.ofJson (place : String) : Json → Except Fault Node
  | .string s => return .target s
  | .object fields => return .choice (← branchesOf place [] fields)
  | .null => throw (.wrongKind place Json.null.kind)
  | .bool b => throw (.wrongKind place (Json.bool b).kind)
  | .int n => throw (.wrongKind place (Json.int n).kind)
  | .double x => throw (.wrongKind place (Json.double x).kind)
  | .array items => throw (.wrongKind place (Json.array items).kind)

/-- Adds the branches that the fields stand for to those before. -/
def branchesOf (place : String) (before : List (String × Node)) :
    List (String × Json) → Except Fault (List (String × Node))
  | [] => return before
  | (condition, v) :: r => do
    let n ← Node.ofJson (place ++ "." ++ condition) v
    branchesOf place (Keyed.insert before condition n) r

end

/-- Adds the entries that the fields of a map in full stand for to those before. -/
def entriesOf (before : Keyed Node) : List (String × Json) → Except Fault (Keyed Node)
  | [] => return before
  | (key, v) :: r => do
    let n ← Node.ofJson key v
    entriesOf (before.insert key n) r

def isSubpathKey (key : String) : Bool := key.toList.head? = some '.'

/-- The key of the package itself. -/
def rootKey : String := "."

/-- The map that a package declares with the value of its field. -/
def ofPackage (v : Json) : Except Fault ExportMap :=
  match v with
  | .object fields =>
    if fields.all (!isSubpathKey ·.1) then
      return empty.insert rootKey (← Node.ofJson "exports" v)
    else if fields.all (isSubpathKey ·.1) then return ⟨← entriesOf [] fields⟩
    else throw .mixedKeys
  | v => return empty.insert rootKey (← Node.ofJson "exports" v)

mutual

/-- The node of a draft without faults, if it has the shape of one. -/
def Node.ofDraft? : Json.Draft → Option Node
  | .string (some s) => some (.target s)
  | .object fields => (branchesOfDraft? [] fields).map .choice
  | _ => none

def branchesOfDraft? (before : List (String × Node)) :
    List (Option String × Json.Draft) → Option (List (String × Node))
  | [] => some before
  | (none, _) :: _ => none
  | (some condition, d) :: r => do
    let n ← Node.ofDraft? d
    branchesOfDraft? (Keyed.insert before condition n) r

end

/-- Reads a node. All of it is read as a value before its shape is looked at. -/
def Node.reader : Json.Reader Node := fun room d => do
  let _ ← Json.ofDraft room d
  match Node.ofDraft? d with
  | some n => return n
  | none => throw (.noShape "untagged enum ExportNode")

/-- Reads a map in full. -/
def reader : Json.Reader ExportMap := fun room d =>
  ExportMap.mk <$> Json.Reader.tableOf Node.reader room d

mutual

def Node.toJson : Node → Json
  | .target t => .string t
  | .choice branches => .object (fieldsOf branches)

def fieldsOf : List (String × Node) → List (String × Json)
  | [] => []
  | (key, n) :: r => (key, n.toJson) :: fieldsOf r

end

def toJson (m : ExportMap) : Json := .object (fieldsOf m.entries)

end Vendoring.ExportMap
