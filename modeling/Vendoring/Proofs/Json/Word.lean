import Vendoring.Json.Printer
import Vendoring.Json.Token
import Vendoring.Proofs.Decimal
import Vendoring.Proofs.Text

/-! The words of a written text: each is read back, whatever follows it. -/
namespace Vendoring.Json.Token

variable {c : Char} {s r b ds : List Char} {t : Token} {n : Nat}

theorem scan_cons (h : first? s = some (t, r)) : scan s = t :: scan r := by
  rw [scan]
  split
  · next hn =>
    rw [h] at hn
    cases hn
  · next h' =>
    rw [h] at h'
    cases h'
    rfl

@[simp] theorem scan_nil : scan [] = [] := by
  rw [scan]
  rfl

/-- Blanks between words count for nothing. -/
theorem scan_blanks (h : ∀ c ∈ b, isBlank c = true) : scan (b ++ s) = scan s := by
  have hf : first? (b ++ s) = first? s := by
    rw [first?, first?, List.dropWhile_append_of_pos h]
  rw [scan, hf, ← scan]

theorem first?_cons (h : isBlank c = false) :
    first? (c :: r) = some ((at? c r).getD (.stray, [])) := by
  simp [first?, h]

theorem scan_at (hb : isBlank c = false) (h : at? c r = some (t, s)) :
    scan (c :: r) = t :: scan s := by
  refine scan_cons ?_
  rw [first?_cons hb, h, Option.getD_some]

theorem hexDigit?_digitChar : ∀ n < 16, hexDigit? (Nat.digitChar n) = some n := by decide

theorem unit?_control (h : n < 0x20) :
    unit? '0' '0' (Nat.digitChar (n / 16)) (Nat.digitChar (n % 16)) = some (.unit n) := by
  have h0 : hexDigit? '0' = some 0 := by decide
  have h1 := hexDigit?_digitChar (n / 16) (by omega)
  have h2 := hexDigit?_digitChar (n % 16) (by omega)
  simp only [unit?, h0, h1, h2, bind, Option.bind, pure]
  congr 2
  omega

/-- The piece that a written character is read as. -/
def pieceOf (c : Char) : Piece :=
  if c.toNat < 0x20 ∧ c ∉ ['\x08', '\x0c', '\n', '\r', '\t'] then .unit c.toNat else .char c

theorem pieces?_escapedChar (c : Char) (s : List Char) :
    pieces? (escapedChar c ++ s) = (pieceOf c).before (pieces? s) := by
  unfold escapedChar
  split
  case h_8 hq hb h8 hc hn hr ht =>
    split
    · next hlt =>
      have hp : pieceOf c = .unit c.toNat := by
        rw [pieceOf, if_pos]
        simp_all
      simp only [List.cons_append, List.nil_append, pieces?, unit?_control hlt, Option.bind_some, hp]
    · next hlt =>
      have hp : pieceOf c = .char c := by
        rw [pieceOf, if_neg]
        simp_all
      rw [List.cons_append, List.nil_append, pieces?, if_neg (by simp_all), hp] <;> simp_all
  all_goals rfl

theorem pieces?_flatMap (s r : List Char) :
    pieces? (s.flatMap escapedChar ++ '"' :: r) = some (s.map pieceOf, r) := by
  induction s with
  | nil => rfl
  | cons c s ih =>
    rw [List.flatMap_cons, List.append_assoc, pieces?_escapedChar, ih]
    rfl

theorem join?_map_pieceOf (s : List Char) : join? (s.map pieceOf) = some s := by
  induction s with
  | nil => rfl
  | cons c s ih =>
    rw [List.map_cons, pieceOf]
    split
    · next h =>
      have hlow : ¬ (0xD800 ≤ c.toNat ∧ c.toNat < 0xDC00) := by omega
      have hhigh : ¬ (0xDC00 ≤ c.toNat ∧ c.toNat < 0xE000) := by omega
      rw [join?.eq_def]
      dsimp only
      rw [if_neg hlow, if_neg hhigh, ih, Option.map_some, Char.ofNat_toNat]
    · rw [join?, ih, Option.map_some]

/-- A written string is read back, and nothing behind its closing quote is looked at. -/
theorem scan_writtenString (s : String) (r : List Char) :
    scan (writtenString s ++ r) = .string (some s) :: scan r := by
  have hs : string? (s.toList.flatMap escapedChar ++ '"' :: r) = some (.string (some s), r) := by
    rw [string?, pieces?_flatMap]
    simp [join?_map_pieceOf]
  have hw : writtenString s ++ r = '"' :: (s.toList.flatMap escapedChar ++ '"' :: r) := by
    simp [writtenString]
  rw [hw]
  exact scan_at (by decide) hs

/-- What may follow a number: nothing with which it would go on. -/
def Ends (r : List Char) : Prop :=
  ∀ c, r.head? = some c → c.isDigit = false ∧ c ≠ '.' ∧ c ≠ 'e' ∧ c ≠ 'E'

theorem digits_append (h : ∀ c ∈ ds, c.isDigit = true) (hr : Ends r) :
    digits (ds ++ r) = (ds, r) := by
  have hstop : r.takeWhile Char.isDigit = [] ∧ r.dropWhile Char.isDigit = r := by
    cases r with
    | nil => exact ⟨rfl, rfl⟩
    | cons c r => simp [(hr c rfl).1]
  rw [digits, List.takeWhile_append_of_pos h, List.dropWhile_append_of_pos h, hstop.1, hstop.2,
    List.append_nil]

theorem exponent?_of_ends (hr : Ends r) : exponent? r = some (none, r) := by
  cases r with
  | nil => rfl
  | cons c r => simp [exponent?, hr c rfl]

theorem magnitude?_decimalDigits (negative : Bool) (n : Nat) (hr : Ends r) :
    magnitude? negative (decimalDigits n ++ r) =
      some (.number ⟨negative, decimalDigits n, [], none⟩, r) := by
  have hd := digits_append (fun _ => isDigit_of_mem_decimalDigits (n := n)) hr
  have hfirst : ¬ ((decimalDigits n).isEmpty = true ∨
      ((decimalDigits n).head? = some '0' ∧ 1 < (decimalDigits n).length)) := by
    rintro (he | ⟨hz, hl⟩)
    · exact decimalDigits_ne_nil n (List.isEmpty_iff.1 he)
    · rw [head?_decimalDigits hz, decimalDigits] at hl
      exact absurd hl (by decide)
  have hfraction : fraction? r = some ([], r) := by
    cases r with
    | nil => rfl
    | cons c r =>
      unfold fraction?
      split
      · next h => exact absurd rfl ((List.cons.inj h).1 ▸ (hr c rfl).2.1)
      · rfl
  rw [magnitude?, hd]
  simp only [if_neg hfirst, hfraction, exponent?_of_ends hr, Option.bind_eq_bind, Option.bind_some]
  rfl

/-- The number that an integer is written as. -/
def numeralOf (n : Int) : Numeral := ⟨decide (n < 0), decimalDigits n.natAbs, [], none⟩

theorem at?_digit (h : c.isDigit = true) : at? c r = magnitude? false (c :: r) := by
  unfold at?
  split <;> first | rfl | exact absurd h (by decide)

theorem isBlank_digit (h : c.isDigit = true) : isBlank c = false := by
  refine Bool.eq_false_iff.2 fun hb => ?_
  simp only [isBlank, Bool.or_eq_true, decide_eq_true_eq] at hb
  rcases hb with ((rfl | rfl) | rfl) | rfl <;> exact absurd h (by decide)

theorem scan_writtenInt (n : Int) (hr : Ends r) :
    scan (writtenInt n ++ r) = .number (numeralOf n) :: scan r := by
  rw [writtenInt, numeralOf]
  split
  · next hn =>
    rw [decide_eq_true hn, List.cons_append]
    exact scan_at (by decide) (magnitude?_decimalDigits true _ hr)
  · next hn =>
    rw [decide_eq_false hn]
    have hm := magnitude?_decimalDigits false n.natAbs hr
    cases hd : decimalDigits n.natAbs with
    | nil => exact absurd hd (decimalDigits_ne_nil _)
    | cons c ds =>
      have hc : c.isDigit = true := isDigit_of_mem_decimalDigits (hd ▸ List.mem_cons_self ..)
      rw [hd, List.cons_append] at hm
      exact scan_at (isBlank_digit hc) ((at?_digit hc).trans hm)

end Vendoring.Json.Token
