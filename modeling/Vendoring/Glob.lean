import Vendoring.Text

/-!
Globs over file names: `?` stands for one character, `*` for any text, `[…]` for one of several
characters and `[!…]` for one of all others. `**` stands for any number of whole segments.
-/

namespace Vendoring

namespace Glob

/-- A character, or a range of them, in brackets. -/
inductive Member
  | one (c : Char)
  | range (first last : Char)
  deriving DecidableEq, Repr

def Member.holds : Member → Char → Bool
  | one d, c => c = d
  | range first last, c => first ≤ c && c ≤ last

inductive Token
  | char (c : Char)
  | anyChar
  | within (members : List Member)
  | except (members : List Member)
  | anyText
  | anySegments
  deriving DecidableEq, Repr

end Glob

structure Glob where
  tokens : List Glob.Token
  deriving DecidableEq, Repr

namespace Glob

inductive Mistake
  | stars
  | segments
  | range
  deriving DecidableEq, Repr

/-- A text that is no glob, and the place where it goes wrong. -/
structure Fault where
  position : Nat
  mistake : Mistake
  deriving DecidableEq, Repr

def Mistake.text : Mistake → String
  | stars => "wildcards are either regular `*` or recursive `**`"
  | segments => "recursive wildcards must form a single path component"
  | range => "invalid range pattern"

def Fault.message (f : Fault) : String :=
  s!"Pattern syntax error near position {f.position}: {f.mistake.text}"

/-- The members that stand between brackets; a hyphen between two characters makes a range. -/
def members : List Char → List Member
  | a :: '-' :: b :: r => .range a b :: members r
  | c :: r => .one c :: members r
  | [] => []

/-- The text up to the closing bracket and the rest. The first character is no closing bracket,
whatever it is. -/
def bracket? : List Char → Option (List Char × List Char)
  | [] => none
  | c :: r =>
    match r.dropWhile (· ≠ ']') with
    | [] => none
    | _ :: rest => some (c :: r.takeWhile (· ≠ ']'), rest)

/-- The token of a bracket, from behind the opening one, and the rest. -/
def class? : List Char → Option (Token × List Char)
  | '!' :: r => (bracket? r).map fun (cs, rest) => (.except (members cs), rest)
  | r => (bracket? r).map fun (cs, rest) => (.within (members cs), rest)

theorem length_bracket? {s : List Char} {x : List Char × List Char} (h : bracket? s = some x) :
    x.2.length < s.length := by
  unfold bracket? at h
  split at h
  · cases h
  · next c r =>
    split at h
    · cases h
    · next d rest hd =>
      have hle : (r.dropWhile (· ≠ ']')).length ≤ r.length :=
        (List.dropWhile_sublist _).length_le
      rw [hd] at hle
      cases h
      simp at hle ⊢
      omega

theorem length_class? {s : List Char} {x : Token × List Char} (h : class? s = some x) :
    x.2.length < s.length := by
  unfold class? at h
  split at h <;> simp only [Option.map_eq_some_iff] at h <;> obtain ⟨y, hy, rfl⟩ := h
  · have := length_bracket? hy
    simp only [List.length_cons]
    omega
  · exact length_bracket? hy

/-- Adds `**`; behind another one it adds nothing, unless that one is the first token. -/
def addSegments (done : List Token) : List Token :=
  if done.head? = some .anySegments ∧ 1 < done.length then done else .anySegments :: done

/-- Reads the rest of a glob. Its tokens so far are in `done`, the last first; the rest starts at
`position`, and `behind?` is the character before it. -/
def readFrom (position : Nat) (behind? : Option Char) (done : List Token) (s : List Char) :
    Except Fault (List Token) :=
  match s with
  | [] => .ok done.reverse
  | '?' :: r => readFrom (position + 1) (some '?') (.anyChar :: done) r
  | '*' :: '*' :: '*' :: _ => .error ⟨position + 2, .stars⟩
  | '*' :: '*' :: r =>
    if behind? = none ∨ behind? = some '/' then
      match r with
      | [] => .ok (addSegments done).reverse
      | '/' :: r => readFrom (position + 3) (some '/') (addSegments done) r
      | _ => .error ⟨position + 2, .segments⟩
    else .error ⟨position - 1, .segments⟩
  | '*' :: r => readFrom (position + 1) (some '*') (.anyText :: done) r
  | '[' :: r =>
    match _h : class? r with
    | some (t, rest) =>
      readFrom (position + 1 + (r.length - rest.length)) (some ']') (t :: done) rest
    | none => .error ⟨position, .range⟩
  | c :: r => readFrom (position + 1) (some c) (.char c :: done) r
termination_by s.length
decreasing_by
  all_goals simp only [List.length_cons]
  all_goals try omega
  have := length_class? ‹_›
  simp only at this
  omega

def parse (text : String) : Except Fault Glob := do
  return ⟨← readFrom 0 none [] text.toList⟩

/-- How the comparison of a name with some tokens ends. -/
inductive Verdict
  | fits
  /-- Not from here on; a `*` before may still stand for more. -/
  | differs
  /-- The name is too short, also for all that a `*` before may stand for. -/
  | tooShort
  deriving DecidableEq, Repr

/-- The first verdict that ends the search. -/
def firstFinal : List (Unit → Verdict) → Verdict
  | [] => .differs
  | v :: r => match v () with
    | .differs => firstFinal r
    | final => final

/-- All that can be left of a name behind a `*`. -/
def leftByText : List Char → List (List Char)
  | [] => [[]]
  | c :: r => (c :: r) :: leftByText r

/-- All that can be left of a name behind the slashes in it, and nothing. -/
def leftBySlashes : List Char → List (List Char)
  | [] => [[]]
  | c :: r => if c = '/' then r :: leftBySlashes r else leftBySlashes r

/-- Whether a token fits one character. -/
def Token.takes : Token → Char → Bool
  | .char d, c => c = d
  | .anyChar, _ => true
  | .within members, c => members.any (·.holds c)
  | .except members, c => !members.any (·.holds c)
  | .anyText, _ | .anySegments, _ => false

def compare : List Token → List Char → Verdict
  | [], [] => .fits
  | [], _ :: _ => .differs
  | .anyText :: ts, name => firstFinal ((leftByText name).map fun s _ => compare ts s)
  | .anySegments :: ts, name =>
    firstFinal ((name :: leftBySlashes name).map fun s _ => compare ts s)
  | _ :: _, [] => .tooShort
  | t :: ts, c :: name => if t.takes c then compare ts name else .differs

/-- Whether the whole of a name fits the glob. -/
def fits (g : Glob) (name : String) : Bool := compare g.tokens name.toList = .fits

end Glob

end Vendoring
