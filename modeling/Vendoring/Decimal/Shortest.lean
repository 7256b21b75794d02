import Vendoring.Decimal.Double

/-!
The shortest decimal that reads back as a given double: of all decimals that round to it, one of
those on the coarsest grid of powers of ten, and of those the nearest.
-/

namespace Vendoring

namespace Double

/-- Numbers that round to a double lie between `low / scale` and `high / scale`, and these ends
belong to it when its mantissa is even; `mid / scale` is the double itself. -/
structure Span where
  low : Nat
  mid : Nat
  high : Nat
  scale : Nat
  closed : Bool

def span (x : Double) : Span :=
  let m := 4 * x.mantissa
  let below := if x.mantissa = twoTo 52 ∧ leastExponent < x.exponent then 1 else 2
  let up := twoTo x.exponent.toNat
  ⟨(m - below) * up, m * up, (m + 2) * up, 4 * x.denominator, x.mantissa % 2 = 0⟩

/-- The multiple of `10 ^ power` in the span that is nearest to the middle, ties to even. -/
def Span.multiple? (s : Span) (power : Int) : Option Nat :=
  let up := tenTo (-power).toNat
  let step := s.scale * tenTo power.toNat
  let floor := s.mid * up / step
  let under := floor * step
  let above := under + step
  let lowHit := s.low * up < under ∨ (s.closed ∧ s.low * up = under)
  let highHit := above < s.high * up ∨ (s.closed ∧ above = s.high * up)
  let down := s.mid * up - under
  let rise := above - s.mid * up
  if lowHit ∧ highHit then
    if down < rise ∨ (down = rise ∧ floor % 2 = 0) then some floor else some (floor + 1)
  else if lowHit then some floor
  else if highHit then some (floor + 1)
  else none

/-- A power of ten above the double. -/
def powerAbove (x : Double) : Int := (x.exponent + Nat.log2 x.mantissa + 1) * 30103 / 100000 + 2

/-- The digits `d` and the power `k` of the shortest decimal `d * 10 ^ k`. -/
def shortest (x : Double) : Nat × Int :=
  if x.mantissa = 0 then (0, 0)
  else
    let power (i : Nat) : Int := x.powerAbove - i
    ((List.range 22).findSome? fun i => (x.span.multiple? (power i)).map (·, power i)).getD (0, 0)

end Double

end Vendoring
