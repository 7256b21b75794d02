import Vendoring.Json.Numeral
import Vendoring.Text

/-!
The words of a JSON text. A text is cut into words from left to right; at the first place where no
word starts the list ends with a stray one.
-/

namespace Vendoring.Json

inductive Token
  | openArray | closeArray | openObject | closeObject | comma | colon
  | null
  | bool (b : Bool)
  | number (x : Numeral)
  /-- A string; it has no text when its escapes name half of a surrogate pair. -/
  | string (text? : Option String)
  | stray

namespace Token

def isBlank (c : Char) : Bool := c = ' ' || c = '\t' || c = '\n' || c = '\r'

/-- One part of a string: a character, or a UTF-16 unit given by its number. -/
inductive Piece
  | char (c : Char)
  | unit (n : Nat)

def hexDigit? (c : Char) : Option Nat :=
  if '0' ≤ c ∧ c ≤ '9' then some (c.toNat - '0'.toNat)
  else if 'a' ≤ c ∧ c ≤ 'f' then some (c.toNat - 'a'.toNat + 10)
  else if 'A' ≤ c ∧ c ≤ 'F' then some (c.toNat - 'A'.toNat + 10)
  else none

def unit? (a b c d : Char) : Option Piece := do
  return .unit (((← hexDigit? a) * 16 + (← hexDigit? b)) * 256 +
    ((← hexDigit? c) * 16 + (← hexDigit? d)))

/-- The character that a backslash and a letter stand for. -/
def escape? : Char → Option Char
  | '"' => some '"'
  | '\\' => some '\\'
  | '/' => some '/'
  | 'b' => some '\x08'
  | 'f' => some '\x0c'
  | 'n' => some '\n'
  | 'r' => some '\r'
  | 't' => some '\t'
  | _ => none

/-- Puts a piece in front of what was read behind it. -/
def Piece.before (p : Piece) : Option (List Piece × List Char) → Option (List Piece × List Char) :=
  Option.map fun x => (p :: x.1, x.2)

/-- The pieces up to the closing quote, and what follows it. -/
def pieces? : List Char → Option (List Piece × List Char)
  | [] => none
  | '"' :: r => some ([], r)
  | '\\' :: 'u' :: a :: b :: c :: d :: r => (unit? a b c d).bind fun p => p.before (pieces? r)
  | '\\' :: c :: r => (escape? c).bind fun c => (Piece.char c).before (pieces? r)
  | c :: r => if c.toNat < 0x20 ∨ c = '\\' then none else (Piece.char c).before (pieces? r)

/-- Joins surrogate pairs; none when a half stands alone. -/
def join? : List Piece → Option (List Char)
  | [] => some []
  | .char c :: r => (join? r).map (c :: ·)
  | .unit n :: r =>
    if 0xD800 ≤ n ∧ n < 0xDC00 then
      match r with
      | .unit m :: r =>
        if 0xDC00 ≤ m ∧ m < 0xE000 then
          (join? r).map (Char.ofNat (0x10000 + (n - 0xD800) * 0x400 + (m - 0xDC00)) :: ·)
        else none
      | _ => none
    else if 0xDC00 ≤ n ∧ n < 0xE000 then none
    else (join? r).map (Char.ofNat n :: ·)

/-- A string, from behind its opening quote. -/
def string? (s : List Char) : Option (Token × List Char) :=
  (pieces? s).map fun (ps, r) => (.string ((join? ps).map String.ofList), r)

/-- The run of digits in front, and the rest. -/
def digits (s : List Char) : List Char × List Char :=
  (s.takeWhile Char.isDigit, s.dropWhile Char.isDigit)

def fraction? : List Char → Option (List Char × List Char)
  | '.' :: r =>
    let (ds, r) := digits r
    if ds.isEmpty then none else some (ds, r)
  | s => some ([], s)

def exponentDigits? (negative : Bool) (s : List Char) :
    Option (Option (Bool × List Char) × List Char) :=
  let (ds, r) := digits s
  if ds.isEmpty then none else some (some (negative, ds), r)

def exponent? : List Char → Option (Option (Bool × List Char) × List Char)
  | c :: r =>
    if c = 'e' ∨ c = 'E' then
      match r with
      | '+' :: r => exponentDigits? false r
      | '-' :: r => exponentDigits? true r
      | r => exponentDigits? false r
    else some (none, c :: r)
  | [] => some (none, [])

/-- A number without its sign. A whole part of several digits does not start with zero. -/
def magnitude? (negative : Bool) (s : List Char) : Option (Token × List Char) := do
  let (whole, r) := digits s
  if whole.isEmpty ∨ (whole.head? = some '0' ∧ 1 < whole.length) then none
  else
    let (fraction, r) ← fraction? r
    let (exponent, r) ← exponent? r
    return (.number ⟨negative, whole, fraction, exponent⟩, r)

def word? (word : List Char) (t : Token) (s : List Char) : Option (Token × List Char) :=
  (Text.after? word s).map (t, ·)

/-- The word that starts with `c`, and what follows it. -/
def at? (c : Char) (r : List Char) : Option (Token × List Char) :=
  match c with
  | '[' => some (.openArray, r)
  | ']' => some (.closeArray, r)
  | '\x7b' => some (.openObject, r)
  | '\x7d' => some (.closeObject, r)
  | ',' => some (.comma, r)
  | ':' => some (.colon, r)
  | '"' => string? r
  | 'n' => word? ['u', 'l', 'l'] .null r
  | 't' => word? ['r', 'u', 'e'] (.bool true) r
  | 'f' => word? ['a', 'l', 's', 'e'] (.bool false) r
  | '-' => magnitude? true r
  | c => magnitude? false (c :: r)

/-- The first word of a text and what follows it; none when only blanks are left. -/
def first? (s : List Char) : Option (Token × List Char) :=
  match s.dropWhile isBlank with
  | [] => none
  | c :: r => some ((at? c r).getD (.stray, []))

theorem length_pieces? {s : List Char} {x : List Piece × List Char} (h : pieces? s = some x) :
    x.2.length < s.length := by
  fun_induction pieces? s generalizing x with
  | case1 => simp at h
  | case2 r => simp at h; subst h; simp
  | case3 a b c d r ih =>
    simp only [Option.bind_eq_some_iff, Piece.before, Option.map_eq_some_iff] at h
    obtain ⟨_, _, y, hy, rfl⟩ := h
    have := ih hy
    simp only [List.length_cons]
    omega
  | case4 c r _ ih =>
    simp only [Option.bind_eq_some_iff, Piece.before, Option.map_eq_some_iff] at h
    obtain ⟨_, _, y, hy, rfl⟩ := h
    have := ih hy
    simp only [List.length_cons]
    omega
  | case5 => simp at h
  | case6 c r _ _ _ _ ih =>
    simp only [Piece.before, Option.map_eq_some_iff] at h
    obtain ⟨y, hy, rfl⟩ := h
    have := ih hy
    simp only [List.length_cons]
    omega

theorem length_digits (s : List Char) : (digits s).2.length ≤ s.length := by
  induction s with
  | nil => simp [digits]
  | cons c r ih =>
    by_cases h : c.isDigit <;> simp_all [digits]
    omega

theorem length_fraction? {s : List Char} {x : List Char × List Char} (h : fraction? s = some x) :
    x.2.length ≤ s.length := by
  unfold fraction? at h
  split at h
  · next r =>
    have := length_digits r
    simp only [Option.ite_none_left_eq_some, Option.some.injEq] at h
    obtain ⟨_, rfl⟩ := h
    simp only [List.length_cons]
    omega
  · cases h; simp

theorem length_exponentDigits? {negative : Bool} {s : List Char}
    {x : Option (Bool × List Char) × List Char} (h : exponentDigits? negative s = some x) :
    x.2.length ≤ s.length := by
  simp only [exponentDigits?, Option.ite_none_left_eq_some, Option.some.injEq] at h
  obtain ⟨_, rfl⟩ := h
  exact length_digits s

theorem length_exponent? {s : List Char} {x : Option (Bool × List Char) × List Char}
    (h : exponent? s = some x) : x.2.length ≤ s.length := by
  unfold exponent? at h
  split at h
  · split at h
    · split at h <;> · have := length_exponentDigits? h; simp at this ⊢; omega
    · cases h; simp
  · cases h; simp

theorem length_magnitude? {negative : Bool} {s : List Char} {x : Token × List Char}
    (h : magnitude? negative s = some x) : x.2.length < s.length := by
  simp only [magnitude?, Option.ite_none_left_eq_some, Option.bind_eq_bind,
    Option.bind_eq_some_iff, not_or] at h
  obtain ⟨⟨hne, _⟩, f, hf, e, he, hx⟩ := h
  cases hx
  have h1 := length_fraction? hf
  have h2 := length_exponent? he
  have h3 : (digits s).2.length < s.length := by
    cases s with
    | nil => simp [digits] at hne
    | cons c r =>
      by_cases hc : c.isDigit
      · have := length_digits r
        simp only [digits] at this
        simp only [digits, List.dropWhile_cons, hc, if_true, List.length_cons]
        omega
      · simp [digits, hc] at hne
  show e.2.length < s.length
  omega

theorem length_word? {word s : List Char} {t : Token} {x : Token × List Char}
    (h : word? word t s = some x) : x.2.length ≤ s.length := by
  simp only [word?, Option.map_eq_some_iff] at h
  obtain ⟨r, hr, rfl⟩ := h
  simp [← Text.after?_eq_some_iff.1 hr]

theorem length_at? {c : Char} {r : List Char} {x : Token × List Char} (h : at? c r = some x) :
    x.2.length ≤ r.length := by
  unfold at? at h
  split at h
  case h_7 =>
    simp only [string?, Option.map_eq_some_iff] at h
    obtain ⟨y, hy, rfl⟩ := h
    exact Nat.le_of_lt (length_pieces? hy)
  case h_8 | h_9 | h_10 => exact length_word? h
  case h_11 => exact Nat.le_of_lt (length_magnitude? h)
  case h_12 => exact Nat.le_of_lt_succ (length_magnitude? h)
  all_goals cases h; exact Nat.le_refl _

theorem length_first? {s : List Char} {x : Token × List Char} (h : first? s = some x) :
    x.2.length < s.length := by
  have hle : (s.dropWhile isBlank).length ≤ s.length := (List.dropWhile_sublist _).length_le
  unfold first? at h
  split at h
  · cases h
  · next c r hs =>
    rw [hs] at hle
    cases h
    cases ha : at? c r with
    | none => simp at hle ⊢; omega
    | some y => have := length_at? ha; simp at hle ⊢; omega

/-- The words of a text. -/
def scan (s : List Char) : List Token :=
  match _h : first? s with
  | none => []
  | some (t, r) => t :: scan r
termination_by s.length
decreasing_by exact length_first? ‹_›

end Token

end Vendoring.Json
