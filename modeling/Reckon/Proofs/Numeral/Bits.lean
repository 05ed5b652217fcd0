import Mathlib
import Reckon.Binary64

/-!
# A double is its sign and its code

A double is given by 64 bits: a sign, eleven bits of exponent and 52 bits of significand.  Of the
many patterns that stand for no number only one is ever used, so the bits of a double are known
from the double, and the double from its bits.

## Main results

* `Binary64.toFloat_isNegative_code` — **a double is known from its sign and its code**.
* `Binary64.eq_nan_of_infinity_lt_code` — one double alone has a code above infinity.
-/

namespace Reckon.Binary64

open Float.Model (Format)
open Float.Model.UnpackedFloat (unpackExponent unpackMantissa packedNaN)

-- Powers are those of the core library, also where another library brings its own.
attribute [local instance (high)] instPowNat

/-- **A double is known from its sign and its code.** -/
@[simp] theorem toFloat_isNegative_code (v : Float) :
    toFloat (isNegative v) (code v) = v := by
  have hbits : (if isNegative v then 2 ^ (63 : Nat) + code v else code v) =
      v.toBits.toNat := by
    have hlt : v.toBits.toNat < 2 ^ (64 : Nat) := v.toBits.toNat_lt
    simp only [isNegative, code, decide_eq_true_eq]
    split <;> omega
  rw [toFloat, hbits, UInt64.ofNat_toNat, Float.ofBits_toBits]

theorem toNat_unpackExponent (b : BitVec Format.binary64.numBits) :
    (unpackExponent b).toNat = b.toNat / 2 ^ (52 : Nat) % 2 ^ (11 : Nat) := by
  simp [unpackExponent, BitVec.extractLsb_toNat, Nat.shiftRight_eq_div_pow]

theorem toNat_unpackMantissa (b : BitVec Format.binary64.numBits) :
    (unpackMantissa b).toNat = b.toNat % 2 ^ (52 : Nat) := by
  simp [unpackMantissa, BitVec.extractLsb_toNat]

/-- Above the pattern of infinity a pattern has an exponent of ones and some significand. -/
theorem eq_packedNaN {b : BitVec Format.binary64.numBits} (hb : Format.binary64.Valid b)
    (h : infinity < b.toNat % 2 ^ (63 : Nat)) : b = packedNaN Format.binary64 := by
  have hlt : b.toNat < 2 ^ (64 : Nat) := b.isLt
  rw [infinity] at h
  apply hb.eq_packedNaN
  · apply BitVec.eq_of_toNat_eq
    rw [toNat_unpackExponent]
    change _ = 2047
    omega
  · intro hzero
    have hmantissa := congrArg BitVec.toNat hzero
    rw [toNat_unpackMantissa] at hmantissa
    change _ = 0 at hmantissa
    omega

/-- **One double alone has a code above infinity**, and it has no sign. -/
theorem eq_nan_of_infinity_lt_code {v : Float} (h : infinity < code v) :
    v = toFloat false nan := by
  have hbits : v.toBits.toBitVec = packedNaN Format.binary64 :=
    eq_packedNaN v.toModel.valid h
  rw [← Float.ofBits_toBits v, UInt64.eq_of_toBitVec_eq (b := .ofNat nan) hbits]
  rfl

end Reckon.Binary64
