import Vendoring.Decimal.Digits
import Vendoring.Decimal.Shortest

/-!
The written form of a double: its shortest digits with a point or with an exponent.
-/

namespace Vendoring

/-- The orders of magnitude that are written without an exponent: from `first` up to, but not
with, `last`. -/
structure DecimalLayout where
  first : Int
  last : Int

/-- Numbers in documents have an exponent below `10 ^ -5` and from `10 ^ 16` on. -/
def DecimalLayout.document : DecimalLayout := ⟨-5, 16⟩

/-- The digits `ds`, of which the first stands for `10 ^ order`, with a point and at least one
digit on each side of it. -/
def DecimalLayout.positional (ds : List Char) (order : Int) : List Char :=
  if order < 0 then ['0', '.'] ++ List.replicate (order.natAbs - 1) '0' ++ ds
  else
    let whole := ds.take (order.toNat + 1)
    let fraction := ds.drop (order.toNat + 1)
    whole ++ List.replicate (order.toNat + 1 - ds.length) '0' ++ ['.'] ++
      if fraction.isEmpty then ['0'] else fraction

/-- The digits `ds` with a point after the first, if others follow, and an exponent with its
sign. -/
def DecimalLayout.scientific (ds : List Char) (order : Int) : List Char :=
  let point := match ds with
    | [d] => [d]
    | d :: r => d :: '.' :: r
    | [] => []
  point ++ ['e', if order < 0 then '-' else '+'] ++ decimalDigits order.natAbs

def DecimalLayout.write (layout : DecimalLayout) (x : Double) : List Char :=
  let (d, k) := x.shortest
  let ds := decimalDigits d
  let order := k + (ds.length - 1 : Nat)
  let sign := if x.negative then ['-'] else []
  sign ++
    if layout.first ≤ order ∧ order < layout.last then positional ds order
    else scientific ds order

end Vendoring
