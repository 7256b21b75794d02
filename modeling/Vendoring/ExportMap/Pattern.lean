import Vendoring.Text

/-!
Texts with one `*`: keys that stand for many subpaths, and targets that are filled in with what
the `*` of the key stood for.
-/

namespace Vendoring.ExportMap

/-- The text before and behind the `*`. -/
structure Pattern where
  before : List Char
  behind : List Char
  deriving DecidableEq, Repr

namespace Pattern

/-- A text is a pattern if it holds exactly one `*`. -/
def ofText? (text : String) : Option Pattern :=
  match text.toList.splitOn '*' with
  | [before, behind] => some ⟨before, behind⟩
  | _ => none

/-- What the `*` stands for in `key`. It stands for at least one character, and for nothing with a
segment `..`. -/
def star? (p : Pattern) (key : String) : Option String :=
  let k := key.toList
  if p.before.isPrefixOf k ∧ p.behind.isSuffixOf k ∧
      p.before.length + p.behind.length < k.length then
    let star := String.ofList
      ((k.drop p.before.length).take (k.length - p.before.length - p.behind.length))
    if Text.climbs star then none else some star
  else none

/-- Puts `star` for the `*`. -/
def fill (p : Pattern) (star : String) : String :=
  String.ofList (p.before ++ star.toList ++ p.behind)

end Pattern

end Vendoring.ExportMap
