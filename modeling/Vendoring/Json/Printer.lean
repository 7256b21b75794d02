import Vendoring.Decimal.Layout
import Vendoring.Json.Basic

/-!
Writing JSON, on one line or with one item a line.
-/

namespace Vendoring.Json

/-- How a character stands in a written string; only quotes, backslashes and the controls below
the blank are escaped. -/
def escapedChar (c : Char) : List Char :=
  match c with
  | '"' => ['\\', '"']
  | '\\' => ['\\', '\\']
  | '\x08' => ['\\', 'b']
  | '\x0c' => ['\\', 'f']
  | '\n' => ['\\', 'n']
  | '\r' => ['\\', 'r']
  | '\t' => ['\\', 't']
  | c =>
    if c.toNat < 0x20 then
      ['\\', 'u', '0', '0', Nat.digitChar (c.toNat / 16), Nat.digitChar (c.toNat % 16)]
    else [c]

def writtenString (s : String) : List Char := '"' :: s.toList.flatMap escapedChar ++ ['"']

def writtenInt (n : Int) : List Char :=
  if n < 0 then '-' :: decimalDigits n.natAbs else decimalDigits n.natAbs

/-- Where the items of a container begin, what stands between two of them, and before the end. -/
structure Breaks where
  first : List Char
  between : List Char
  last : List Char

/-- The layout of a text: the breaks inside the containers of each depth, and what stands between
a name and its value. -/
structure Layout where
  breaks : Nat → Breaks
  colon : List Char

def Layout.compact : Layout := ⟨fun _ => ⟨[], [','], []⟩, [':']⟩

/-- A new line, indented by two blanks for each level. -/
def newLine (depth : Nat) : List Char := '\n' :: List.replicate (2 * depth) ' '

def Layout.pretty : Layout :=
  ⟨fun depth => ⟨newLine (depth + 1), ',' :: newLine (depth + 1), newLine depth⟩, [':', ' ']⟩

mutual

/-- The text of a value inside of `depth` containers. -/
def write (layout : Layout) (depth : Nat) : Json → List Char
  | .null => ['n', 'u', 'l', 'l']
  | .bool true => ['t', 'r', 'u', 'e']
  | .bool false => ['f', 'a', 'l', 's', 'e']
  | .int n => writtenInt n
  | .double x => DecimalLayout.document.write x
  | .string s => writtenString s
  | .array [] => ['[', ']']
  | .array (v :: r) =>
    '[' :: (layout.breaks depth).first ++ write layout (depth + 1) v ++
      writeItems layout depth r ++ (layout.breaks depth).last ++ [']']
  | .object [] => ['\x7b', '\x7d']
  | .object ((name, v) :: r) =>
    '\x7b' :: (layout.breaks depth).first ++ writtenString name ++ layout.colon ++
      write layout (depth + 1) v ++ writeFields layout depth r ++
      (layout.breaks depth).last ++ ['\x7d']

/-- The items behind the first, in a container at `depth`. -/
def writeItems (layout : Layout) (depth : Nat) : List Json → List Char
  | [] => []
  | v :: r =>
    (layout.breaks depth).between ++ write layout (depth + 1) v ++ writeItems layout depth r

/-- The fields behind the first, in a container at `depth`. -/
def writeFields (layout : Layout) (depth : Nat) : List (String × Json) → List Char
  | [] => []
  | (name, v) :: r =>
    (layout.breaks depth).between ++ writtenString name ++ layout.colon ++
      write layout (depth + 1) v ++ writeFields layout depth r

end

/-- The value on one line, without blanks. -/
def compact (v : Json) : String := String.ofList (write .compact 0 v)

/-- The value with one item a line. -/
def pretty (v : Json) : String := String.ofList (write .pretty 0 v)

end Vendoring.Json
