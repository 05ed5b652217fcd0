/-!
# Double-precision numbers as integers

A double that is not negative is named by a natural number, its *code*: the 63 bits below
the sign.  Codes are ordered as the numbers they name.  A finite double is a whole number
of *units* of `2 ^ -1074`, the smallest positive double, so rounding to a double is a
matter of natural numbers alone.

## Main definitions

* `Binary64.infinity`, `Binary64.nan` — the codes that name no finite number.
* `Binary64.units c` — the number of units in the double of code `c`.
* `Binary64.round num den` — the code of the double nearest to `num / den`.
* `Binary64.code`, `Binary64.isNegative`, `Binary64.toFloat` — between codes and `Float`.

## Main results

* `Binary64.scale_add_significand` — a code is its scale and its significand, put together.
-/

namespace Reckon.Binary64

-- Powers are those of the core library, also where another library brings its own.
attribute [local instance (high)] instPowNat

/-- The code of infinity, which is the first that names no finite double. -/
def infinity : Nat := 2047 * 2 ^ (52 : Nat)

/-- The code of the one value that is not a number. -/
def nan : Nat := infinity + 2 ^ (51 : Nat)

/-- The number of binary places by which the significand is shifted.  The smallest doubles
and the next binade are not shifted at all. -/
def scale (code : Nat) : Nat := code / 2 ^ (52 : Nat) - 1

/-- The significand: below `2 ^ 53`, and at least `2 ^ 52` unless the scale is zero. -/
def significand (code : Nat) : Nat := code - scale code * 2 ^ (52 : Nat)

/-- The value of a finite double in units of `2 ^ -1074`. -/
def units (code : Nat) : Nat := significand code * 2 ^ scale code

/-- The quotient of two numbers rounded to a whole number, a half to the even neighbour. -/
def divToEven (num den : Nat) : Nat :=
  let quotient := num / den
  let rest := num % den
  if den < 2 * rest ∨ den = 2 * rest ∧ quotient % 2 = 1 then quotient + 1 else quotient

/-- The code of the double nearest to `num / den`; of two that are equally near, the one
with the even code.  Everything from half a step above the largest double on is infinite.

The value is brought down to at most 53 binary digits before the point and rounded there.
A significand that is rounded up to `2 ^ 53` carries into the scale by itself. -/
def round (num den : Nat) : Nat :=
  let scaled := num * 2 ^ (1074 : Nat)
  let shift := (scaled / den).log2 - 52
  min (shift * 2 ^ (52 : Nat) + divToEven scaled (den * 2 ^ shift)) infinity

theorem scale_add_significand (code : Nat) :
    scale code * 2 ^ (52 : Nat) + significand code = code := by
  unfold significand scale
  omega

/-! ### Doubles -/

/-- The code of a double, its sign left out. -/
def code (v : Float) : Nat := v.toBits.toNat % 2 ^ (63 : Nat)

/-- Whether the sign of a double is negative, which holds of the negative zero too. -/
def isNegative (v : Float) : Bool := 2 ^ (63 : Nat) ≤ v.toBits.toNat

/-- The double of a sign and a code. -/
def toFloat (negative : Bool) (code : Nat) : Float :=
  Float.ofBits (.ofNat (if negative then 2 ^ (63 : Nat) + code else code))

end Reckon.Binary64
