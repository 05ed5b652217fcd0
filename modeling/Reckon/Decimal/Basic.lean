import Reckon.Binary64

/-!
# Decimal numbers

A decimal is a whole number of digits and a power of ten.  Different decimals may have the
same value, as `5 · 10 ^ 1` and `50 · 10 ^ 0` do.

## Main definitions

* `Decimal` — digits and exponent.
* `Decimal.nearest` — the code of the double nearest to a decimal.
-/

namespace Reckon

/-- The number `digits · 10 ^ exponent`. -/
structure Decimal where
  digits : Nat
  exponent : Int
  deriving DecidableEq, Repr

namespace Decimal

-- Powers are those of the core library, also where another library brings its own.
attribute [local instance (high)] instPowNat

/-- The code of the double nearest to a decimal.

The exponent is first brought into a range behind which the answer no longer changes: with
at least one digit, everything from `10 ^ 400` on is infinite, and everything below
`10 ^ -399` is zero.  That keeps the powers of ten small however large the exponent is. -/
def nearest (d : Decimal) : Nat :=
  let exponent := max (-((d.digits.log2 + 400 : Nat) : Int)) (min d.exponent 400)
  Binary64.round (d.digits * 10 ^ exponent.toNat) (10 ^ (-exponent).toNat)

end Decimal

end Reckon
