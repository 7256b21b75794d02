import Vendoring.Json.Token

/-!
Drafts: JSON texts read as far as they are JSON. A draft has the shape of the value that the text
would be, with numbers as they are written, repeated names kept apart, and a broken part at the
place where the text stops being JSON. Readers go through a draft in the order of the text, so the
first fault they meet is the first in the text.
-/

namespace Vendoring.Json

inductive Draft
  | null
  | bool (b : Bool)
  | number (x : Numeral)
  | string (text? : Option String)
  | array (items : List Draft)
  /-- A name that cannot be read is none. -/
  | object (fields : List (Option String × Draft))
  | broken

namespace Draft

/-- A container that is not closed yet: what it holds so far, the latest first. -/
inductive Frame
  | array (items : List Draft)
  /-- The next value belongs to `name?`. -/
  | object (fields : List (Option String × Draft)) (name? : Option String)

/-- The container whose last part is `d`. -/
def Frame.close : Frame → Draft → Draft
  | .array items, d => .array (items.reverse ++ [d])
  | .object fields name?, d => .object (fields.reverse ++ [(name?, d)])

/-- Closes all open containers around a last part. -/
def closeAll (frames : List Frame) (d : Draft) : Draft := frames.foldl (fun d f => f.close d) d

/-- A draft, and whether the text ends behind it. -/
abbrev Reading := Draft × Bool

/-- The draft of a text that breaks off inside `frames`. -/
def breakOff (frames : List Frame) : Reading := (closeAll frames .broken, false)

mutual

/-- Reads a value inside `frames`, then what follows it. -/
def value (frames : List Frame) : List Token → Reading
  | .null :: r => behind frames .null r
  | .bool b :: r => behind frames (.bool b) r
  | .number x :: r => behind frames (.number x) r
  | .string text? :: r => behind frames (.string text?) r
  | .openArray :: .closeArray :: r => behind frames (.array []) r
  | .openArray :: r => value (.array [] :: frames) r
  | .openObject :: .closeObject :: r => behind frames (.object []) r
  | .openObject :: .string name? :: .colon :: r => value (.object [] name? :: frames) r
  | .openObject :: .string name? :: _ => breakOff (.object [] name? :: frames)
  | .openObject :: _ => breakOff (.object [] none :: frames)
  | _ => breakOff frames

/-- Goes on behind a value: the next part of the innermost container, or its end. -/
def behind : List Frame → Draft → List Token → Reading
  | [], d, r => (d, r.isEmpty)
  | .array items :: frames, d, .comma :: r => value (.array (d :: items) :: frames) r
  | .array items :: frames, d, .closeArray :: r => behind frames (Frame.close (.array items) d) r
  | .array items :: frames, d, _ => breakOff (.array (d :: items) :: frames)
  | .object fields name? :: frames, d, .comma :: .string next? :: .colon :: r =>
    value (.object ((name?, d) :: fields) next? :: frames) r
  | .object fields name? :: frames, d, .comma :: .string next? :: _ =>
    breakOff (.object ((name?, d) :: fields) next? :: frames)
  | .object fields name? :: frames, d, .closeObject :: r =>
    behind frames (Frame.close (.object fields name?) d) r
  | .object fields name? :: frames, d, _ =>
    breakOff (.object ((name?, d) :: fields) none :: frames)

end

def ofText (text : String) : Reading := value [] (Token.scan text.toList)

mutual

/-- Whether a part can be skipped: it is not broken anywhere. -/
def isWhole : Draft → Bool
  | .array items => areWhole items
  | .object fields => haveWhole fields
  | .broken => false
  | _ => true

def areWhole : List Draft → Bool
  | [] => true
  | d :: r => d.isWhole && areWhole r

def haveWhole : List (Option String × Draft) → Bool
  | [] => true
  | (_, d) :: r => d.isWhole && haveWhole r

end

end Draft

end Vendoring.Json
