import Reckon.Decimal.Shortest

/-!
# The decimals chosen for a double read back

Rounding to a double depends on the value of a fraction alone, and a value that is a double is
rounded to itself.  So the exact expansion of a double reads back, and with it every decimal
that the search for the shortest one may answer.

## Main results

* `Binary64.round_mul_right` — rounding does not depend on how a fraction is written.
* `Binary64.round_of_units` — a double is rounded to itself.
* `Decimal.nearest_shift` — trailing zeros may be added to the digits.
* `Decimal.nearest_shortest` — **the shortest decimal reads back**.
-/

namespace Reckon

-- Powers are those of the core library, also where another library brings its own.
attribute [local instance (high)] instPowNat

namespace Binary64

/-! ### Rounding a fraction -/

theorem divToEven_mul_right (num den : Nat) {k : Nat} (hk : 0 < k) :
    divToEven (num * k) (den * k) = divToEven num den := by
  have hlt : den * k < 2 * (num % den * k) ↔ den < 2 * (num % den) := by
    rw [← Nat.mul_assoc]
    exact Nat.mul_lt_mul_right hk
  have heq : den * k = 2 * (num % den * k) ↔ den = 2 * (num % den) := by
    rw [← Nat.mul_assoc]
    exact Nat.mul_right_cancel_iff hk
  simp only [divToEven, Nat.mul_div_mul_right _ _ hk, Nat.mul_mod_mul_right, hlt, heq]

theorem divToEven_mul_self (n : Nat) {den : Nat} (hden : 0 < den) :
    divToEven (n * den) den = n := by
  have hno : ¬(den < 2 * 0 ∨ den = 2 * 0 ∧ n % 2 = 1) := by omega
  simp only [divToEven, Nat.mul_div_cancel _ hden, Nat.mul_mod_left]
  rw [if_neg hno]

/-- **Rounding does not depend on how a fraction is written.** -/
theorem round_mul_right (num den : Nat) {k : Nat} (hk : 0 < k) :
    round (num * k) (den * k) = round num den := by
  have hscaled : num * k * 2 ^ (1074 : Nat) = num * 2 ^ (1074 : Nat) * k :=
    Nat.mul_right_comm ..
  simp only [round, hscaled, Nat.mul_div_mul_right _ _ hk]
  rw [Nat.mul_right_comm den k, divToEven_mul_right _ _ hk]

theorem round_zero (den : Nat) : round 0 den = 0 := by
  have hdiv : ∀ den, divToEven 0 den = 0 := fun den => by
    simp [divToEven]
  simp only [round, Nat.zero_mul, Nat.zero_div, Nat.log2_zero, Nat.zero_sub, hdiv,
    Nat.zero_add, Nat.zero_min]

/-- The units of a double have as many binary digits too many as its scale says. -/
theorem log2_units_sub (code : Nat) : (units code).log2 - 52 = scale code := by
  rcases Nat.eq_zero_or_pos (scale code) with hscale | hscale
  · -- no digit too many: the significand is the code, which is below `2 ^ 53`
    have hlt : code < 2 ^ (53 : Nat) := by
      rw [scale] at hscale
      omega
    rw [units, significand, hscale, Nat.zero_mul, Nat.sub_zero, Nat.pow_zero,
      Nat.mul_one]
    rcases Nat.eq_zero_or_pos code with rfl | hcode
    · rfl
    · have := (Nat.log2_lt (Nat.ne_of_gt hcode)).mpr hlt
      omega
  · -- the significand has 53 digits, and the scale adds its own
    have hsignificand : 2 ^ (52 : Nat) ≤ significand code ∧
        significand code < 2 ^ (53 : Nat) := by
      rw [scale] at hscale
      rw [significand, scale]
      omega
    have hlog : (units code).log2 = 52 + scale code := by
      have hunits : units code ≠ 0 :=
        Nat.mul_ne_zero (by omega) (Nat.ne_of_gt (Nat.two_pow_pos _))
      refine (Nat.log2_eq_iff hunits).mpr ⟨?_, ?_⟩
      · rw [Nat.pow_add]
        exact Nat.mul_le_mul_right _ hsignificand.1
      · rw [Nat.add_right_comm, Nat.pow_add]
        exact Nat.mul_lt_mul_of_pos_right hsignificand.2 (Nat.two_pow_pos _)
    omega

/-- **A double is rounded to itself.** -/
theorem round_of_units {code num den : Nat} (hcode : code ≤ infinity) (hden : 0 < den)
    (h : num * 2 ^ (1074 : Nat) = units code * den) : round num den = code := by
  have hexact : units code * den = significand code * (den * 2 ^ scale code) := by
    rw [units, Nat.mul_assoc, Nat.mul_comm den]
  have hpos : 0 < den * 2 ^ scale code := Nat.mul_pos hden (Nat.two_pow_pos _)
  simp only [round, h, Nat.mul_div_cancel _ hden, log2_units_sub]
  rw [hexact, divToEven_mul_self _ hpos, scale_add_significand]
  exact Nat.min_eq_left hcode

theorem units_pos {code : Nat} (h : 0 < code) : 0 < units code := by
  refine Nat.mul_pos ?_ (Nat.two_pow_pos _)
  rw [significand, scale]
  omega

end Binary64

namespace Decimal

open Binary64 (infinity units)

/-! ### The double nearest to a decimal -/

/-- The bounds on the exponent are wide enough for every decimal that is written. -/
theorem nearest_eq_round {d : Decimal} (hlow : -((d.digits.log2 + 400 : Nat) : Int) ≤ d.exponent)
    (hhigh : d.exponent ≤ 400) :
    d.nearest =
      Binary64.round (d.digits * 10 ^ d.exponent.toNat) (10 ^ (-d.exponent).toNat) := by
  simp only [nearest, Int.min_eq_left hhigh, Int.max_eq_right hlow]

theorem nearest_zero (exponent : Int) : nearest ⟨0, exponent⟩ = 0 := by
  simp only [nearest, Nat.zero_mul, Binary64.round_zero]

/-- **Trailing zeros may be added to the digits** of a whole number, behind its point too. -/
theorem nearest_shift (digits zeros : Nat) (h : zeros ≤ 400) :
    nearest ⟨digits * 10 ^ (zeros + 1), -1⟩ = nearest ⟨digits, zeros⟩ := by
  have hleft : nearest ⟨digits * 10 ^ (zeros + 1), -1⟩ =
      Binary64.round (digits * 10 ^ (zeros + 1) * 1) (10 ^ (1 : Nat)) :=
    nearest_eq_round (by simp only; omega) (by simp only; omega)
  have hright : nearest ⟨digits, zeros⟩ = Binary64.round (digits * 10 ^ zeros) 1 := by
    rw [nearest_eq_round (by simp only; omega) (by simp only; omega)]
    have hnone : (-(zeros : Int)).toNat = 0 := by omega
    simp only [Int.toNat_natCast, hnone, Nat.pow_zero]
  rw [hleft, hright, Nat.mul_one, Nat.pow_succ, ← Nat.mul_assoc, Nat.pow_one,
    ← Binary64.round_mul_right (digits * 10 ^ zeros) 1 (k := 10) (by decide), Nat.one_mul]

/-! ### The shortest decimal -/

theorem nearest_expansion {code : Nat} (hpos : 0 < code) (hcode : code ≤ infinity) :
    (expansion code).nearest = code := by
  -- the expansion has far more digits than the bound on its exponent asks for
  have hlog : 1074 ≤ (expansion code).digits.log2 := by
    have hfives : ∀ n : Nat, 2 ^ n ≤ 5 ^ n := Nat.pow_le_pow_left (by decide)
    have hdigits : 2 ^ (1074 : Nat) ≤ (expansion code).digits :=
      Nat.le_trans (hfives 1074) (Nat.le_mul_of_pos_left _ (Binary64.units_pos hpos))
    exact (Nat.le_log2 (Nat.ne_of_gt (Nat.lt_of_lt_of_le (Nat.two_pow_pos _) hdigits))).mpr
      hdigits
  have hexponent : (expansion code).exponent = -1074 := rfl
  rw [nearest_eq_round (by omega) (by omega)]
  refine Binary64.round_of_units hcode (Nat.pow_pos (by decide)) ?_
  -- a unit is `2 ^ -1074`, and the expansion counts in `10 ^ -1074`
  have hten : ∀ n : Nat, 10 ^ n = 5 ^ n * 2 ^ n := Nat.mul_pow 5 2
  have hwhole : (expansion code).exponent.toNat = 0 := rfl
  have hfraction : (-(expansion code).exponent).toNat = 1074 := rfl
  have hdigits : (expansion code).digits = units code * 5 ^ (1074 : Nat) := rfl
  rw [hwhole, hfraction, hdigits, hten 1074, Nat.pow_zero, Nat.mul_one, Nat.mul_assoc]

/-- **The shortest decimal reads back.**  A cut is only chosen when it does, and the expansion,
which stands in where none was found, always does. -/
theorem nearest_shortest {code : Nat} (hcode : code ≤ infinity) :
    (shortest code).nearest = code := by
  unfold shortest
  split
  · next hzero => rw [hzero, nearest_zero]
  · next hzero =>
    extract_lets exact total cut
    cases hcut : cut with
    | none => exact nearest_expansion (Nat.pos_of_ne_zero hzero) hcode
    | some d =>
      obtain ⟨kept, -, hkept⟩ := List.exists_of_findSome?_eq_some hcut
      exact nearest_of_cut? hkept

end Decimal

end Reckon
