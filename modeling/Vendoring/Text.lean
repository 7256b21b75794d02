/-!
Operations on text that the rules of names, paths and markers are made of. They work on the
characters of a text; positions never show.
-/

namespace Vendoring.Text

/-- What follows `lead`, if the text starts with it. -/
def after? (lead text : List Char) : Option (List Char) :=
  if lead.isPrefixOf text then some (text.drop lead.length) else none

theorem after?_eq_some_iff {lead text rest : List Char} :
    after? lead text = some rest ↔ lead ++ rest = text := by
  simp only [after?, Option.ite_none_right_eq_some, Option.some.injEq, List.isPrefixOf_iff_prefix]
  constructor
  · rintro ⟨⟨r, rfl⟩, rfl⟩
    simp
  · rintro rfl
    exact ⟨List.prefix_append _ _, by simp⟩

/-- The text without any number of `./` in front. -/
def dropDotSlashes : List Char → List Char
  | '.' :: '/' :: r => dropDotSlashes r
  | s => s

/-- The text without the run of `c` at its end. -/
def dropTrailing (c : Char) (text : List Char) : List Char :=
  (text.reverse.dropWhile (· = c)).reverse

def occursIn (part : List Char) : List Char → Bool
  | [] => part.isEmpty
  | c :: r => part.isPrefixOf (c :: r) || occursIn part r

/-- Puts `new` for every occurrence of `old` that starts after the end of the one before; `skip`
characters still belong to the last occurrence. -/
def replaceFrom (old new : List Char) : (skip : Nat) → List Char → List Char
  | _, [] => []
  | skip + 1, _ :: r => replaceFrom old new skip r
  | 0, c :: r =>
    if old.isPrefixOf (c :: r) then new ++ replaceFrom old new (old.length - 1) r
    else c :: replaceFrom old new 0 r

/-- Replaces the occurrences of a text that is not empty, from left to right. -/
def replaceAll (old new text : List Char) : List Char := replaceFrom old new 0 text

/-- Replaces the first `c`. -/
def replaceFirst (c : Char) (new : List Char) : List Char → List Char
  | [] => []
  | d :: r => if d = c then new ++ r else d :: replaceFirst c new r

/-- The text between separators; there is always one piece more than there are separators. -/
def segments (text : String) : List (List Char) := text.toList.splitOn '/'

/-- Whether one of the segments between slashes is `..`. -/
def climbs (text : String) : Bool := (segments text).any (· = ['.', '.'])

/-- Fills up with blanks to at least `width` characters. -/
def padded (width : Nat) (text : String) : String :=
  text ++ String.ofList (List.replicate (width - text.length) ' ')

/-- Puts an item before the first one whose name is not less than its own. -/
def insertByName {α : Type} (name : α → String) (x : α) : List α → List α
  | [] => [x]
  | y :: r => if name y < name x then y :: insertByName name x r else x :: y :: r

/-- The items in the order of their names; items of one name stay in their order. -/
def sortByName {α : Type} (name : α → String) (xs : List α) : List α :=
  xs.foldr (insertByName name) []

end Vendoring.Text
