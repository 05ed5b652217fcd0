import Reckon.Decimal.Basic

/-!
# Writing a decimal

A decimal is written in full when it is neither very large nor very small, and always with
a digit on either side of the point.  Otherwise it is written with one digit before the
point and an exponent; there the point is left out when no digit follows it.

## Main definitions

* `Decimal.Layout` — which decimals are written in full.
* `Decimal.layOut` — the written form under a layout.
-/

namespace Reckon.Decimal

/-- Decimals of at least `10 ^ low` and below `10 ^ high` are written in full. -/
structure Layout where
  low : Int
  high : Int
  deriving DecidableEq, Repr

/-- The digits in full, with the point behind the first `point` of them.  Zeros fill the
space between the point and the digits. -/
def positional (ds : List Char) (point : Int) : List Char :=
  if point ≤ 0 then '0' :: '.' :: List.replicate (-point).toNat '0' ++ ds
  else if ds.length ≤ point.toNat then
    ds ++ List.replicate (point.toNat - ds.length) '0' ++ ['.', '0']
  else ds.take point.toNat ++ '.' :: ds.drop point.toNat

/-- The digits with the point behind the first one, and the exponent that makes up for
it. -/
def scientific (ds : List Char) (exponent : Int) : List Char :=
  let fraction := if ds.length ≤ 1 then [] else '.' :: ds.drop 1
  let sign := if exponent < 0 then ['-'] else []
  ds.take 1 ++ fraction ++ 'e' :: sign ++ Nat.toDigits 10 exponent.natAbs

/-- The written form of a decimal. -/
def layOut (layout : Layout) (d : Decimal) : List Char :=
  let ds := Nat.toDigits 10 d.digits
  let leading := ds.length + d.exponent - 1
  if layout.low ≤ leading ∧ leading < layout.high then positional ds (leading + 1)
  else scientific ds leading

end Reckon.Decimal
