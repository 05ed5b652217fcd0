import Mathlib
import Reckon.Proofs.Numeral.ReadBack
import Reckon.Proofs.Numeral.Shortest

/-!
# The texts of values

A finite value is written with the fewest digits that are rounded to it, in full or with an
exponent.  Which of the two depends on the value alone, not on the digits that were chosen for
it.  Reading the text gives the value again.

## Main definitions

* `Decimal.leading d` — the power of ten of the first digit.
* `Numeral.InFull q` — whether a number is written without an exponent.
* `Numeral.Spells text v` — the text is the one that a value is to have.

## Main results

* `Decimal.exponent_mem_layOut_iff` — only what is not laid out in full has an exponent.
* `Numeral.spells_write` — **every value gets its text**.
* `Numeral.exists_read?_write` — **every value reads back** from its text, bit for bit.
-/

namespace Reckon

-- Powers are those of the core library, also where another library brings its own.
attribute [local instance (high)] instPowNat

namespace Decimal

open Binary64 (infinity units)

variable {d : Decimal} {code : Nat}

/-! ### The first digit -/

/-- The power of ten of the first digit. -/
def leading (d : Decimal) : Int := (Nat.toDigits 10 d.digits).length + d.exponent - 1

theorem power_leading_le (hpos : 0 < d.digits) : value ⟨1, d.leading⟩ ≤ d.value := by
  obtain ⟨zeros, hzeros⟩ : ∃ zeros, (Nat.toDigits 10 d.digits).length = zeros + 1 :=
    Nat.exists_eq_add_one.mpr Nat.length_toDigits_pos
  have hle : 10 ^ zeros ≤ d.digits := by
    rcases Nat.eq_zero_or_pos zeros with rfl | hone
    · exact hpos
    · by_contra hlt
      have := (Nat.length_toDigits_le_iff (by decide) hone).mpr (Nat.lt_of_not_le hlt)
      omega
  have hleading : d.leading = d.exponent + zeros := by
    rw [leading, hzeros]
    omega
  rw [hleading, ← value_shift, Nat.one_mul]
  exact value_le_value_iff.mpr hle

theorem lt_power_leading (d : Decimal) : d.value < value ⟨1, d.leading + 1⟩ := by
  have hlt : d.digits < 10 ^ (Nat.toDigits 10 d.digits).length :=
    (Nat.length_toDigits_le_iff (by decide) Nat.length_toDigits_pos).mp le_rfl
  have hleading : d.leading + 1 = d.exponent + (Nat.toDigits 10 d.digits).length := by
    rw [leading]
    omega
  rw [hleading, ← value_shift, Nat.one_mul]
  exact value_lt_value_iff.mpr hlt

/-- The first digit tells which powers of ten a decimal reaches. -/
theorem le_leading_iff (hpos : 0 < d.digits) {exponent : Int} :
    exponent ≤ d.leading ↔ value ⟨1, exponent⟩ ≤ d.value := by
  constructor
  · intro hle
    exact (value_le_of_exponent_le 1 hle).trans (power_leading_le hpos)
  · intro hle
    by_contra hlt
    have hnext : d.leading + 1 ≤ exponent := Int.not_le.mp hlt
    exact absurd ((lt_power_leading d).trans_le (value_le_of_exponent_le 1 hnext)) (not_lt.mpr hle)

/-! ### The exponent -/

theorem exponent_notMem_positional {ds : List Char} (hds : IsDigits ds) (point : Int) :
    'e' ∉ positional ds point := by
  have hno : ∀ {cs : List Char}, IsDigits cs → 'e' ∉ cs := fun hcs hmem =>
    absurd (hcs _ hmem) (by decide)
  unfold positional
  split
  · simp [hno hds, hno (isDigits_replicate_zero _)]
  · split
    · simp [hno hds, hno (isDigits_replicate_zero _)]
    · simp [hno (hds.take _), hno (hds.drop _)]

/-- Only what is not laid out in full has an exponent. -/
theorem exponent_mem_layOut_iff (layout : Layout) :
    'e' ∈ d.layOut layout ↔ ¬(layout.low ≤ d.leading ∧ d.leading < layout.high) := by
  have hdigits := isDigits_toDigits d.digits
  have heq : d.layOut layout = if layout.low ≤ d.leading ∧ d.leading < layout.high then
      positional (Nat.toDigits 10 d.digits) (d.leading + 1)
    else scientific (Nat.toDigits 10 d.digits) d.leading := rfl
  rw [heq]
  split
  · next hfull => simp [hfull, exponent_notMem_positional hdigits]
  · next hnot => simp [hnot, scientific]

/-- Decimals and doubles are compared as whole numbers. -/
theorem value_le_of_mul_le
    (h : d.digits * 10 ^ d.exponent.toNat * 2 ^ (1074 : Nat) ≤
      units code * 10 ^ (-d.exponent).toNat) : d.value ≤ Binary64.value code := by
  rw [value_eq_div, Binary64.value, div_le_div_iff₀ (by positivity) (by positivity)]
  simpa only [Nat.cast_mul, Nat.cast_pow, Nat.cast_ofNat] using Nat.cast_le (α := ℚ).mpr h

end Decimal

namespace Numeral

open Binary64 (infinity isNegative)

/-- Whether a number is written without an exponent. -/
def InFull (q : ℚ) : Prop := q = 0 ∨ 10 ^ (-4 : ℤ) ≤ q ∧ q < 10 ^ (16 : ℤ)

theorem exponent_mem_layOut_shortest {code : Nat} (hcode : code < infinity) :
    'e' ∈ (Decimal.shortest code).layOut layout ↔ ¬InFull (Binary64.value code) := by
  rw [Decimal.exponent_mem_layOut_iff, InFull]
  rcases Nat.eq_zero_or_pos code with rfl | hpos
  · simp only [Binary64.value_zero, true_or, not_true_eq_false, iff_false, not_not]
    decide +kernel
  · have hshortest := Decimal.isShortest_shortest hcode
    have hdigits : 0 < (Decimal.shortest code).digits :=
      Decimal.digits_pos_of_nearest ((Decimal.nearest_shortest hcode.le).symm ▸ hpos)
    have hvalue : Binary64.value code ≠ 0 :=
      (Binary64.value_zero ▸ Binary64.value_strictMono hpos).ne'
    -- neither of the two bounds comes between the double and its shortest decimal
    have hlow := hshortest.power_le_iff hcode.le layout.low
      (Decimal.value_le_of_mul_le (by decide +kernel))
    have hhigh := hshortest.power_le_iff hcode.le layout.high
      (Decimal.value_le_of_mul_le (by decide +kernel))
    have hpower : ∀ exponent, Decimal.value ⟨1, exponent⟩ = 10 ^ exponent := fun exponent => by
      rw [Decimal.value, Nat.cast_one, one_mul]
    rw [← Int.not_le, Decimal.le_leading_iff hdigits, Decimal.le_leading_iff hdigits, hlow, hhigh,
      not_le, hpower, hpower, or_iff_right hvalue]
    rfl

/-- The sign of a value, as it is written. -/
def sign (v : Float) : List Char := if isNegative v then ['-'] else []

/-- The text that a value is to have.  A finite one has the fewest digits that are rounded to it,
and an exponent where it would otherwise be too long. -/
structure Spells (text : String) (v : Float) : Prop where
  nan : infinity < Binary64.code v → text = "NaN"
  infinite : Binary64.code v = infinity → text.toList = sign v ++ "Infinity".toList
  finite : Binary64.code v < infinity → ∃ d, Decimal.IsShortest d (Binary64.code v) ∧
    text.toList = sign v ++ d.layOut layout
  exponent : Binary64.code v < infinity →
    ('e' ∈ text.toList ↔ ¬InFull (Binary64.value (Binary64.code v)))

theorem write_of_infinity_lt {v : Float} (h : infinity < Binary64.code v) : write v = "NaN" :=
  if_pos h

theorem toList_write {v : Float} (h : Binary64.code v ≤ infinity) :
    (write v).toList = sign v ++ writeCode (Binary64.code v) := by
  have hwrite : write v = String.ofList (sign v ++ writeCode (Binary64.code v)) :=
    if_neg (Nat.not_lt.mpr h)
  rw [hwrite, String.toList_ofList]

/-- **Every value gets its text.** -/
theorem spells_write (v : Float) : Spells (write v) v where
  nan h := write_of_infinity_lt h
  infinite h := by
    rw [toList_write h.le, writeCode, if_pos h]
  finite h := by
    rw [toList_write h.le, writeCode, if_neg h.ne]
    exact ⟨_, Decimal.isShortest_shortest h, rfl⟩
  exponent h := by
    have hsign : 'e' ∉ sign v := by
      unfold sign
      split <;> decide
    rw [toList_write h.le, writeCode, if_neg h.ne, List.mem_append, or_iff_right hsign]
    exact exponent_mem_layOut_shortest h

/-- **Every value reads back** from its text, bit for bit: the sign of a zero is kept, and what is
no number reads as no number. -/
theorem exists_read?_write (v : Float) :
    Spells (write v) v ∧ ∃ w, read? (write v) = some w ∧ w.toBits = v.toBits ∧
      (v.isNaN → w.isNaN) ∧ (¬v.isNaN → w == v) := by
  refine ⟨spells_write v, v, read?_write v, rfl, id, fun h => ?_⟩
  rw [Float.isNaN_eq_decide_eq_nan, decide_eq_true_eq] at h
  exact Float.beq_self_iff.mpr h

end Numeral

end Reckon
