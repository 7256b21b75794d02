import Vendoring.Decimal.Power

/-!
Double precision numbers as sign, mantissa and power of two, with arithmetic that rounds an exact
quotient once. A finite double is kept in its one normal form: the mantissa has 53 bits, or fewer
at the least exponent.
-/

namespace Vendoring

/-- The number `± mantissa * 2 ^ exponent`. -/
structure Double where
  negative : Bool
  mantissa : Nat
  exponent : Int
  deriving DecidableEq, Repr

namespace Double

/-- The exponent of the smallest doubles. -/
def leastExponent : Int := -1074

/-- The exponent of the largest doubles. -/
def greatestExponent : Int := 971

def zero : Double := ⟨false, 0, leastExponent⟩

def neg (x : Double) : Double := { x with negative := !x.negative }

/-- The magnitude is `numerator / denominator`. -/
def numerator (x : Double) : Nat := x.mantissa * twoTo x.exponent.toNat

def denominator (x : Double) : Nat := twoTo (-x.exponent).toNat

/-- The greatest `e` with `2 ^ e ≤ num / den`, for positive numbers. -/
def binaryOrder (num den : Nat) : Int :=
  let e : Int := Nat.log2 num - Nat.log2 den
  if den * twoTo e.toNat ≤ num * twoTo (-e).toNat then e else e - 1

/-- A quotient rounded to the nearest whole number, ties to even. -/
def roundedQuotient (num den : Nat) : Nat :=
  let q := num / den
  let r := num % den
  if den < 2 * r ∨ (den = 2 * r ∧ q % 2 = 1) then q + 1 else q

/-- The double nearest to `num / den`, ties to even; none beyond the largest double. -/
def nearest? (num den : Nat) : Option Double :=
  if num = 0 then some zero
  else
    let e := max (binaryOrder num den - 52) leastExponent
    let m := roundedQuotient (num * twoTo (-e).toNat) (den * twoTo e.toNat)
    let (m, e) := if m = twoTo 53 then (twoTo 52, e + 1) else (m, e)
    if e ≤ greatestExponent then some ⟨false, m, e⟩ else none

def ofNat? (n : Nat) : Option Double := nearest? n 1

/-- The rounded product of two magnitudes. -/
def times? (x y : Double) : Option Double :=
  nearest? (x.numerator * y.numerator) (x.denominator * y.denominator)

/-- The rounded quotient of two magnitudes. -/
def over? (x y : Double) : Option Double :=
  nearest? (x.numerator * y.denominator) (x.denominator * y.numerator)

/-- The double nearest to a power of ten. -/
def tenTo? (n : Nat) : Option Double := ofNat? (tenTo n)

/-- The greatest power of ten that is a double. -/
def greatestTen : Nat := 308

/-- Divides by `10 ^ n`, in steps of the greatest power of ten, each rounded. -/
def overTenTo? (x : Double) (n : Nat) : Option Double := do
  if n ≤ greatestTen then
    x.over? (← tenTo? n)
  else if x.mantissa = 0 then
    return x
  else
    overTenTo? (← x.over? (← tenTo? greatestTen)) (n - greatestTen)
termination_by n
decreasing_by simp [greatestTen] at *; omega

/-- Multiplies by `10 ^ n` in one rounded step; none when that is too large. -/
def timesTenTo? (x : Double) (n : Nat) : Option Double := do
  if n ≤ greatestTen then x.times? (← tenTo? n)
  else if x.mantissa = 0 then return x
  else none

/-- A significand, rounded, and then scaled by a power of ten. -/
def scaled? (significand : Nat) (power : Int) : Option Double := do
  let x ← ofNat? significand
  if power < 0 then x.overTenTo? power.natAbs else x.timesTenTo? power.toNat

end Double

end Vendoring
