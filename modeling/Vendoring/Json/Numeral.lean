import Vendoring.Decimal.Digits
import Vendoring.Json.Basic

/-!
Numbers as they are written. A number without fraction and exponent is an integer while it fits
into 64 bits; all others are doubles, made of the leading digits that fit into 64 bits and one
power of ten.
-/

namespace Vendoring.Json

/-- The parts of a written number; digits only, and no fraction without a digit. -/
structure Numeral where
  negative : Bool
  whole : List Char
  fraction : List Char
  /-- Whether the exponent is negative, and its digits. -/
  exponent : Option (Bool × List Char)

namespace Numeral

/-- The first value that a significand cannot have. -/
def significandLimit : Nat := twoTo 64

/-- A significand takes digits until one would not fit; the digits left over are returned. -/
def extend (n : Nat) : List Char → Nat × List Char
  | [] => (n, [])
  | c :: r =>
    if 10 * n + digitValue c < significandLimit then extend (10 * n + digitValue c) r
    else (n, c :: r)

/-- Whether the number is written with a fraction or an exponent. -/
def isScaled (x : Numeral) : Bool := !x.fraction.isEmpty || x.exponent.isSome

/-- The greatest exponent that is still read. -/
def exponentLimit : Nat := twoTo 31 - 1

/-- The number as a double: digits of the whole part that do not fit raise the power of ten,
those of the fraction that fit lower it, and the rest of the fraction is dropped. None when the
magnitude is too large. -/
def double? (x : Numeral) : Option Double := do
  let (n, surplus) := extend 0 x.whole
  let (n, dropped) := extend n x.fraction
  let power : Int := surplus.length - (x.fraction.length - dropped.length : Nat)
  let magnitude ← match x.exponent with
    | none => Double.scaled? n power
    | some (negative, ds) =>
      let e := decimalValue ds
      if exponentLimit < e then
        if n = 0 ∨ negative then some Double.zero else none
      else Double.scaled? n (if negative then power - e else power + e)
  return if x.negative then magnitude.neg else magnitude

/-- The value of a written number; none when its magnitude is too large. -/
def value? (x : Numeral) : Option Json :=
  let n := decimalValue x.whole
  if x.isScaled then x.double?.map double
  else if !x.negative ∧ n < twoTo 64 then some (int n)
  else if x.negative ∧ 0 < n ∧ n ≤ twoTo 63 then some (int (-n))
  else x.double?.map double

end Numeral

end Vendoring.Json
