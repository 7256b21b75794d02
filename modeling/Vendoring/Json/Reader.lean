import Vendoring.Decimal.Layout
import Vendoring.Json.Draft
import Vendoring.Json.Fault
import Vendoring.Text.Quoted

/-!
Reading a draft: as a value of any shape, or for one purpose with the shape that it needs. Every
reader takes the number of containers that may still be opened.
-/

namespace Vendoring.Json

abbrev Result := Except Fault

/-- Reads a draft inside of which `room` containers may be nested. -/
abbrev Reader (α : Type) := (room : Nat) → Draft → Result α

/-- No text may nest more containers than this. -/
def nestingLimit : Nat := 127

/-- Reads a whole text; what stands behind the value is looked at last. -/
def read {α : Type} (reader : Reader α) (text : String) : Result α := do
  let (d, ends) := Draft.ofText text
  let a ← reader nestingLimit d
  if ends then return a else throw .malformed

mutual

/-- The value of a draft; a repeated name keeps its first place and its last value. -/
def ofDraft (room : Nat) : Draft → Result Json
  | .null => return null
  | .bool b => return bool b
  | .number x => match x.value? with
    | some v => return v
    | none => throw .malformed
  | .string (some s) => return string s
  | .string none => throw .malformed
  | .array items => match room with
    | 0 => throw .malformed
    | room + 1 => return array (← ofItems room items)
  | .object fields => match room with
    | 0 => throw .malformed
    | room + 1 => return object (← ofFields room [] fields)
  | .broken => throw .malformed

def ofItems (room : Nat) : List Draft → Result (List Json)
  | [] => return []
  | d :: r => do
    let v ← ofDraft room d
    let vs ← ofItems room r
    return v :: vs

/-- Adds the fields to those that were read before. -/
def ofFields (room : Nat) (before : List (String × Json)) :
    List (Option String × Draft) → Result (List (String × Json))
  | [] => return before
  | (none, _) :: _ => throw .malformed
  | (some name, d) :: r => do
    let v ← ofDraft room d
    ofFields room (Keyed.insert before name v) r

end

/-- Reads a text as a value of any shape. -/
def parse (text : String) : Result Json := read ofDraft text

namespace Draft

/-- How a message names what stands in a place where something else was expected. -/
def found : Draft → Result String
  | .null => return "null"
  | .bool b => return s!"boolean `{b}`"
  | .number x => match x.value? with
    | some (.int n) => return s!"integer `{n}`"
    | some (.double x) =>
      return "floating point `" ++ String.ofList (DecimalLayout.document.write x) ++ "`"
    | _ => throw .malformed
  | .string (some s) => return "string " ++ Text.quoted s
  | .string none => throw .malformed
  | .array _ => return "sequence"
  | .object _ => return "map"
  | .broken => throw .malformed

def refuse {α : Type} (d : Draft) (expected : String) : Result α := do
  throw (.mismatch (← d.found) expected)

end Draft

namespace Reader
variable {α σ : Type}

def string (expected : String) : Reader String
  | _, .string (some s) => return s
  | _, d => d.refuse expected

def bool : Reader Bool
  | _, .bool b => return b
  | _, d => d.refuse "a boolean"

/-- An integer of 32 bits without a sign. -/
def word32 : Reader Nat
  | _, .number x => match x.value? with
    | some (.int n) =>
      if 0 ≤ n ∧ n < twoTo 32 then return n.toNat else throw (.outOfRange n "u32")
    | _ => (Draft.number x).refuse "u32"
  | _, d => d.refuse "u32"

/-- Nothing, or what `reader` reads. -/
def optional (reader : Reader α) : Reader (Option α)
  | _, .null => return none
  | room, d => some <$> reader room d

def listOf (reader : Reader α) : Reader (List α)
  | 0, .array _ => throw .malformed
  | room + 1, .array items => items.mapM (reader room)
  | _, d => d.refuse "a sequence"

/-- Reads the fields of a table into the table of those before. -/
def entries (reader : Reader α) (room : Nat) (before : Keyed α) :
    List (Option String × Draft) → Result (Keyed α)
  | [] => return before
  | (none, _) :: _ => throw .malformed
  | (some name, d) :: r => do
    let a ← reader room d
    entries reader room (before.insert name a) r

def tableOf (reader : Reader α) : Reader (Keyed α)
  | 0, .object _ => throw .malformed
  | room + 1, .object fields => entries reader room [] fields
  | _, d => d.refuse "a map"

/-- One field of a record that is being filled. -/
structure Slot (σ : Type) where
  name : String
  isFilled : σ → Bool
  fill : (room : Nat) → Draft → σ → Result σ

/-- A field with a reader and a place in the record. -/
def Slot.of (name : String) (reader : Reader α) (get : σ → Option α) (set : σ → α → σ) : Slot σ :=
  ⟨name, fun s => (get s).isSome, fun room d s => set s <$> reader room d⟩

/-- A record, given as an object or as the list of its fields in their order. -/
structure Shape (σ : Type) where
  title : String
  slots : List (Slot σ)
  /-- Whether an object may have fields that the record does not know. -/
  takesUnknown : Bool
  /-- Whether a list may leave out the last fields. -/
  takesShort : Bool

/-- Fills a record from the fields of an object. -/
def Shape.fillNamed (shape : Shape σ) (room : Nat) (s : σ) :
    List (Option String × Draft) → Result σ
  | [] => return s
  | (none, _) :: _ => throw .malformed
  | (some name, d) :: r =>
    match shape.slots.find? (·.name = name) with
    | some slot => do
      if slot.isFilled s then throw (.repeatedField name)
      shape.fillNamed room (← slot.fill room d s) r
    | none =>
      if !shape.takesUnknown then throw (.unknownField name (shape.slots.map (·.name)))
      else if d.isWhole then shape.fillNamed room s r
      else throw .malformed

/-- Fills a record from the items of a list; `count` fields were filled before. -/
def Shape.fillListed (shape : Shape σ) (room count : Nat) (s : σ) :
    List (Slot σ) → List Draft → Result σ
  | [], [] => return s
  | [], _ :: _ => throw .malformed
  | _ :: _, [] =>
    if shape.takesShort then return s
    else throw (.wrongLength count s!"{shape.title} with {shape.slots.length} elements")
  | slot :: slots, d :: r => do
    shape.fillListed room (count + 1) (← slot.fill room d s) slots r

def Shape.fill (shape : Shape σ) (empty : σ) : Reader σ
  | 0, .array _ | 0, .object _ => throw .malformed
  | room + 1, .array items => shape.fillListed room 0 empty shape.slots items
  | room + 1, .object fields => shape.fillNamed room empty fields
  | _, d => d.refuse shape.title

/-- The value of a field that must be there. -/
def required (name : String) : Option α → Result α
  | some a => return a
  | none => throw (.missingField name)

end Reader

end Vendoring.Json
