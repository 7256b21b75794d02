import Vendoring.ExportMap.Basic
import Vendoring.ExportMap.Pattern
import Vendoring.Specifier

/-!
Looking up a subpath in an export map. A key that is the subpath decides alone; otherwise the
longest pattern that fits does. In a choice the first active condition that has a branch is taken,
or else the default, and there is no way back from a branch.
-/

namespace Vendoring.ExportMap

/-- The condition that is always active, behind all others. -/
def defaultCondition : String := "default"

/-- The target that a node leads to, and the conditions taken on the way, the outermost first. -/
structure Selection where
  conditions : List String
  target : String
  deriving DecidableEq, Repr

def Selection.behind (condition : String) (s : Selection) : Selection :=
  { s with conditions := condition :: s.conditions }

/-- The condition whose branch is taken. -/
def chosen? (active : List String) (branches : List (String × Node)) : Option String :=
  (active ++ [defaultCondition]).find? (Keyed.contains branches)

mutual

def Node.select? (active : List String) : Node → Option Selection
  | .target t => some ⟨[], t⟩
  | .choice branches =>
    match chosen? active branches with
    | some condition => (selectAt? active condition branches).map (Selection.behind condition)
    | none => none

/-- Goes on in the branch of `condition`. -/
def selectAt? (active : List String) (condition : String) :
    List (String × Node) → Option Selection
  | [] => none
  | (key, n) :: r => if key = condition then n.select? active else selectAt? active condition r

end

/-- What a lookup found: the key of the map, the conditions taken, and the target with its `*`
filled in. -/
structure Hit where
  key : String
  conditions : List String
  target : String
  deriving DecidableEq, Repr

/-- A pattern key that fits, with its node and what its `*` stands for. -/
structure Candidate where
  key : String
  node : Node
  star : String

def candidate? (wanted : String) (entry : String × Node) : Option Candidate := do
  let star ← (← Pattern.ofText? entry.1).star? wanted
  return ⟨entry.1, entry.2, star⟩

/-- A longer key goes before a shorter one; of two equally long ones the smaller goes first. -/
def Candidate.precedes (a b : Candidate) : Bool :=
  b.key.utf8ByteSize < a.key.utf8ByteSize ||
    (a.key.utf8ByteSize = b.key.utf8ByteSize && a.key < b.key)

/-- The first of two candidates. -/
def Candidate.better (a b : Candidate) : Candidate := if b.precedes a then b else a

def best? : List Candidate → Option Candidate
  | [] => none
  | c :: r => some (r.foldl Candidate.better c)

/-- Looks up the patterns. -/
def findPattern? (m : ExportMap) (wanted : String) (active : List String) : Option Hit := do
  let c ← best? (m.entries.filterMap (candidate? wanted))
  let s ← c.node.select? active
  let template ← Pattern.ofText? s.target
  return ⟨c.key, s.conditions, template.fill c.star⟩

/-- Looks up an internal subpath: empty, or starting with a slash. -/
def find? (m : ExportMap) (subpath : String) (active : List String) : Option Hit :=
  let wanted := Specifier.exportKeyOf subpath
  match m.get? wanted with
  | some node => (node.select? active).map fun s => ⟨wanted, s.conditions, s.target⟩
  | none => m.findPattern? wanted active

def resolve? (m : ExportMap) (subpath : String) (active : List String) : Option String :=
  (m.find? subpath active).map (·.target)

end Vendoring.ExportMap
