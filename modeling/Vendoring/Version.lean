import Vendoring.Decimal.Digits
import Vendoring.Decimal.Power
import Vendoring.Text.Quoted

/-!
Semantic versions: three numbers, and behind them a pre-release and build metadata made of segments
between dots.
-/

namespace Vendoring

structure Version where
  major : Nat
  minor : Nat
  patch : Nat
  preRelease : List String
  build : List String
  deriving DecidableEq, Repr

namespace Version

inductive Position
  | major
  | minor
  | patch
  | preRelease
  | build
  deriving DecidableEq, Repr

def Position.text : Position → String
  | major => "major version number"
  | minor => "minor version number"
  | patch => "patch version number"
  | preRelease => "pre-release identifier"
  | build => "build metadata"

inductive Fault
  | empty
  | unexpectedEnd (p : Position)
  | unexpectedChar (p : Position) (c : Char)
  | unexpectedAfter (p : Position) (c : Char)
  | leadingZero (p : Position)
  | overflow (p : Position)
  | emptySegment (p : Position)
  deriving DecidableEq, Repr

def Fault.message : Fault → String
  | empty => "empty string, expected a semver version"
  | unexpectedEnd p => s!"unexpected end of input while parsing {p.text}"
  | unexpectedChar p c => s!"unexpected character {Text.quotedChar c} while parsing {p.text}"
  | unexpectedAfter p c => s!"unexpected character {Text.quotedChar c} after {p.text}"
  | leadingZero p => s!"invalid leading zero in {p.text}"
  | overflow p => s!"value of {p.text} exceeds u64::MAX"
  | emptySegment p => s!"empty identifier segment in {p.text}"

/-- A number without leading zeros, below `2 ^ 64`, and what follows it. -/
def number (p : Position) (s : List Char) : Except Fault (Nat × List Char) :=
  let ds := s.takeWhile Char.isDigit
  let rest := s.dropWhile Char.isDigit
  match ds, rest with
  | [], [] => .error (.unexpectedEnd p)
  | [], c :: _ => .error (.unexpectedChar p c)
  | '0' :: _ :: _, _ => .error (.leadingZero p)
  | ds, rest =>
    if decimalValue ds < twoTo 64 then .ok (decimalValue ds, rest) else .error (.overflow p)

/-- What follows the dot behind a number. -/
def dot (p : Position) : List Char → Except Fault (List Char)
  | '.' :: r => .ok r
  | c :: _ => .error (.unexpectedAfter p c)
  | [] => .error (.unexpectedEnd p)

def isSegmentChar (c : Char) : Bool := c.isAlphanum || c = '-'

/-- A segment that is a number has no leading zero in a pre-release. -/
def checkSegment (p : Position) (segment : List Char) : Except Fault Unit :=
  if segment = [] then .error (.emptySegment p)
  else if p = .preRelease ∧ segment.all Char.isDigit ∧ 1 < segment.length ∧
      segment.head? = some '0' then .error (.leadingZero p)
  else .ok ()

/-- Segments between dots, and what follows them. -/
def segments (p : Position) (s : List Char) : Except Fault (List String × List Char) := do
  let belongs (c : Char) : Bool := isSegmentChar c || c = '.'
  let parts := (s.takeWhile belongs).splitOn '.'
  parts.forM (checkSegment p)
  return (parts.map String.ofList, s.dropWhile belongs)

/-- Segments that begin behind the character `mark`, if the text starts with it. -/
def marked (mark : Char) (p : Position) (s : List Char) : Except Fault (List String × List Char) :=
  match s with
  | c :: r => if c = mark then segments p r else .ok ([], s)
  | [] => .ok ([], [])

/-- The last part of a version that was read. -/
def lastPart (v : Version) : Position :=
  if v.build ≠ [] then .build else if v.preRelease ≠ [] then .preRelease else .patch

def parse (text : String) : Except Fault Version := do
  if text = "" then throw .empty
  let (major, s) ← number .major text.toList
  let s ← dot .major s
  let (minor, s) ← number .minor s
  let s ← dot .minor s
  let (patch, s) ← number .patch s
  let (preRelease, s) ← marked '-' .preRelease s
  let (build, s) ← marked '+' .build s
  let v : Version := ⟨major, minor, patch, preRelease, build⟩
  match s with
  | [] => return v
  | c :: _ => throw (.unexpectedAfter v.lastPart c)

/-- The segments behind their mark, or nothing if there are none. -/
def suffix (mark : String) : List String → String
  | [] => ""
  | parts => mark ++ String.intercalate "." parts

def numberText (n : Nat) : String := String.ofList (decimalDigits n)

def text (v : Version) : String :=
  numberText v.major ++ "." ++ numberText v.minor ++ "." ++ numberText v.patch ++
    suffix "-" v.preRelease ++ suffix "+" v.build

end Version

end Vendoring
