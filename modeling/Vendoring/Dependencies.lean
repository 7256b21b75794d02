import Vendoring.Keyed

/-!
The dependencies of several packages put together. The first package that declares a dependency
sets its range, and the others have to agree.
-/

namespace Vendoring

structure Dependency where
  range : String
  declaredBy : String
  deriving DecidableEq, Repr

/-- Merged dependencies, in the order in which they were first declared. -/
structure Dependencies where
  entries : Keyed Dependency
  deriving DecidableEq, Repr

namespace Dependencies

/-- Two packages want different ranges of one dependency. -/
structure Conflict where
  name : String
  first : Dependency
  second : Dependency
  deriving DecidableEq, Repr

def Conflict.message (c : Conflict) : String :=
  s!"'{c.name}' is required at {c.first.range} by {c.first.declaredBy} but at {c.second.range} " ++
    s!"by {c.second.declaredBy}"

def empty : Dependencies := ⟨[]⟩

def get? (s : Dependencies) (name : String) : Option Dependency := s.entries.get? name

/-- The names and their ranges. -/
def ranges (s : Dependencies) : List (String × String) := s.entries.map fun e => (e.1, e.2.range)

/-- The conflict of one declaration with those before, if there is one. -/
def conflict? (s : Dependencies) (package : String) (declared : String × String) :
    Option Conflict :=
  match s.get? declared.1 with
  | some first =>
    if first.range = declared.2 then none else some ⟨declared.1, first, ⟨declared.2, package⟩⟩
  | none => none

/-- Adds a dependency that is not there yet. -/
def declare (s : Dependencies) (package : String) (declared : String × String) : Dependencies :=
  match s.get? declared.1 with
  | some _ => s
  | none => ⟨s.entries ++ [(declared.1, ⟨declared.2, package⟩)]⟩

/-- Adds what a package declares, all of it or, if there is a conflict, nothing. -/
def merge (s : Dependencies) (package : String) (declared : List (String × String)) :
    Except Conflict Dependencies :=
  match declared.findSome? (s.conflict? package) with
  | some c => .error c
  | none => .ok (declared.foldl (·.declare package ·) s)

end Dependencies

end Vendoring
