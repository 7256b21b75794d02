import Vendoring.Text

/-!
Paths as they are written. Empty segments and `.` inside a path count for nothing, `..` is a
segment like others, and nothing is looked up: the file system gives a path its meaning.

A path is a text here, and so is each name on a disk. Names of other bytes than those of a text,
which a file system may hold too, and what is done where one of them is met cannot be stated.
-/

namespace Vendoring

structure Path where
  text : String
  deriving DecidableEq, Repr

namespace Path

def ofChars (cs : List Char) : Path := ⟨String.ofList cs⟩

/-- What stands before the segments, a leading slash or dot, and the rest of the text. -/
def cutLead : List Char → List Char × List Char
  | '/' :: r => (['/'], r)
  | ['.'] => (['.'], [])
  | '.' :: '/' :: r => (['.'], '/' :: r)
  | s => ([], s)

/-- Whether a segment counts for nothing. -/
def isIdle (segment : List Char) : Bool := segment = [] || segment = ['.']

def lead (p : Path) : List Char := (cutLead p.text.toList).1

/-- The segments behind the lead, idle ones too, the last first. -/
def backward (p : Path) : List (List Char) := ((cutLead p.text.toList).2.splitOn '/').reverse

/-- The segments that count. -/
def segments (p : Path) : List String :=
  (p.backward.reverse.filter (!isIdle ·)).map String.ofList

/-- The path that ends in the first of some segments in backward order that counts. -/
def endingIn (lead : List Char) (backward : List (List Char)) : Path :=
  ofChars (lead ++ ['/'].intercalate (backward.dropWhile isIdle).reverse)

/-- The parents of the path whose segments are given in backward order. -/
def parentsFrom (lead : List Char) : List (List Char) → List Path
  | [] => if lead = ['.'] then [⟨""⟩] else []
  | s :: r => if isIdle s then parentsFrom lead r else endingIn lead r :: parentsFrom lead r

/-- The paths left by dropping one more segment each time, the nearest first. -/
def parents (p : Path) : List Path := parentsFrom p.lead p.backward

def parent? (p : Path) : Option Path := p.parents.head?

/-- The path itself and its parents. -/
def ancestors (p : Path) : List Path := p :: p.parents

/-- The last segment, unless it is `..`. -/
def fileName? (p : Path) : Option String :=
  match p.backward.dropWhile isIdle with
  | [] => none
  | s :: _ => if s = ['.', '.'] then none else some (String.ofList s)

def isAbsolute (p : Path) : Bool := p.text.toList.head? = some '/'

def endsInSlash (p : Path) : Bool := p.text.toList.getLast? = some '/'

/-- The place that `rel` names as seen from `base`. -/
def join (base : Path) (rel : String) : Path :=
  if rel.toList.head? = some '/' then ⟨rel⟩
  else if base.text = "" || base.endsInSlash then ⟨base.text ++ rel⟩
  else ⟨base.text ++ "/" ++ rel⟩

/-- Puts another name for the last segment. -/
def withFileName (p : Path) (name : String) : Path := (p.parent?.getD ⟨""⟩).join name

/-- The directory that holds the file at `p`; the current one for a bare name. -/
def directory (p : Path) : Path :=
  match p.parent? with
  | some q => if q.text = "" then ⟨"."⟩ else q
  | none => ⟨"."⟩

/-- The segments of a path below the place it is relative to; none if it is absolute or climbs. -/
def plainSegments? (p : Path) : Option (List String) :=
  if p.isAbsolute || p.segments.contains ".." then none else some p.segments

/-- All names between slashes, dots too, as a walk through directories takes them. -/
def steps (p : Path) : List String :=
  ((p.text.toList.splitOn '/').filter (· ≠ [])).map String.ofList

end Path

end Vendoring
