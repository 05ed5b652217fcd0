import Mathlib
import Reckon.Proofs.Numeral.Nearest

/-!
# Rounding is correct

The doubles that are not negative stand for numbers that grow with their codes, each by one step
of its binade.  Rounding finds the one that is nearest to a fraction, and of two that are equally
near the one with the even code.  There is only one such double, and it grows with the fraction.

## Main definitions

* `Binary64.value code` — the number that a double stands for.
* `Binary64.IsNearest q code` — the double is the one that `q` is to be rounded to.
* `Binary64.Placed` — where rounding puts a fraction before infinity cuts it off.
* `Decimal.value d` — the number that a decimal stands for.

## Main results

* `Binary64.units_succ` — from each double to the next it is one step of its binade.
* `Binary64.IsNearest.of_neighbours` — only the two neighbours of a double need to be looked at.
* `Binary64.IsNearest.le_of_le` — rounding does not change the order.
* `Binary64.isNearest_round` — **rounding is correct**.
* `Decimal.isNearest_nearest` — **a decimal is rounded correctly**, however large its exponent is.
-/

namespace Reckon.Binary64

-- Powers are those of the core library, also where another library brings its own.
attribute [local instance (high)] instPowNat

/-- The number that a double stands for.  Infinity takes part as the number that would follow the
largest finite one. -/
def value (code : Nat) : ℚ := units code / 2 ^ (1074 : Nat)

/-- No double is nearer to `q`, and if another one is as near, the code is even. -/
structure IsNearest (q : ℚ) (code : Nat) : Prop where
  le_infinity : code ≤ infinity
  nearest : ∀ c ≤ infinity, |value code - q| ≤ |value c - q|
  even : ∀ c ≤ infinity, c ≠ code → |value c - q| = |value code - q| → code % 2 = 0

variable {q q' : ℚ} {code code' : Nat}

/-! ### From one double to the next -/

/-- A significand may be as large as `2 ^ 53`, which carries into the scale. -/
theorem units_scale_add {s n : Nat} (hn : n ≤ 2 ^ (53 : Nat)) (hs : s = 0 ∨ 2 ^ (52 : Nat) ≤ n) :
    units (s * 2 ^ (52 : Nat) + n) = n * 2 ^ s := by
  rcases Nat.lt_or_eq_of_le hn with hlt | rfl
  · have hscale : scale (s * 2 ^ (52 : Nat) + n) = s := by
      rw [scale]
      omega
    rw [units, significand, hscale, Nat.add_sub_cancel_left]
  · have hscale : scale (s * 2 ^ (52 : Nat) + 2 ^ (53 : Nat)) = s + 1 := by
      rw [scale]
      omega
    have hsignificand : significand (s * 2 ^ (52 : Nat) + 2 ^ (53 : Nat)) = 2 ^ (52 : Nat) := by
      rw [significand, hscale]
      omega
    rw [units, hscale, hsignificand, ← Nat.pow_add, ← Nat.pow_add]
    congr 1
    omega

theorem significand_lt (code : Nat) : significand code < 2 ^ (53 : Nat) := by
  rw [significand, scale]
  omega

theorem scale_eq_zero_or (code : Nat) : scale code = 0 ∨ 2 ^ (52 : Nat) ≤ significand code := by
  rw [significand, scale]
  omega

/-- **From each double to the next it is one step of its binade.** -/
theorem units_succ (code : Nat) : units (code + 1) = units code + 2 ^ scale code := by
  have hlt := significand_lt code
  have hscale := scale_eq_zero_or code
  have hcode : code + 1 = scale code * 2 ^ (52 : Nat) + (significand code + 1) := by
    rw [← Nat.add_assoc, scale_add_significand]
  rw [hcode, units_scale_add hlt (hscale.imp_right Nat.le_succ_of_le), Nat.succ_mul, units]

theorem units_strictMono : StrictMono units :=
  strictMono_nat_of_lt_succ fun code => by
    rw [units_succ]
    exact Nat.lt_add_of_pos_right (Nat.two_pow_pos _)

theorem value_strictMono : StrictMono value := fun a b hab =>
  div_lt_div_of_pos_right (Nat.cast_lt.mpr (units_strictMono hab)) (by positivity)

theorem value_zero : value 0 = 0 := by
  simp [value, units, significand]

/-! ### Only neighbours count -/

/-- A double is the nearest if the number lies between the middles to its two neighbours. -/
theorem IsNearest.of_neighbours (hcode : code ≤ infinity)
    (hbelow : ∀ c, c + 1 = code → value c + value code ≤ 2 * q ∧
      (value c + value code = 2 * q → code % 2 = 0))
    (habove : code < infinity → 2 * q ≤ value code + value (code + 1) ∧
      (2 * q = value code + value (code + 1) → code % 2 = 0)) : IsNearest q code := by
  have hlow : ∀ c < code, value c + value code ≤ 2 * q ∧
      (value c + value code = 2 * q → code % 2 = 0) := by
    intro c hc
    obtain ⟨p, rfl⟩ : ∃ p, p + 1 = code := ⟨code - 1, by omega⟩
    obtain ⟨hle, heven⟩ := hbelow p rfl
    have hcp : value c ≤ value p := value_strictMono.monotone (by omega)
    exact ⟨by linarith, fun heq => heven (by linarith)⟩
  have hhigh : ∀ c ≤ infinity, code < c → 2 * q ≤ value code + value c ∧
      (2 * q = value code + value c → code % 2 = 0) := by
    intro c hinfinity hc
    obtain ⟨hle, heven⟩ := habove (by omega)
    have hcn : value (code + 1) ≤ value c := value_strictMono.monotone hc
    exact ⟨by linarith, fun heq => heven (by linarith)⟩
  refine ⟨hcode, fun c hc => ?_, fun c hc hne heq => ?_⟩
  · rcases Nat.lt_trichotomy c code with hlt | rfl | hlt
    · have hvalue := value_strictMono hlt
      rw [abs_le, abs_of_nonpos (a := value c - q) (by linarith [(hlow c hlt).1])]
      constructor <;> linarith [(hlow c hlt).1]
    · exact le_rfl
    · have hvalue := value_strictMono hlt
      rw [abs_le, abs_of_nonneg (a := value c - q) (by linarith [(hhigh c hc hlt).1])]
      constructor <;> linarith [(hhigh c hc hlt).1]
  · rcases Nat.lt_or_gt_of_ne hne with hlt | hlt
    · have hvalue := value_strictMono hlt
      refine (hlow c hlt).2 ?_
      rcases abs_eq_abs.mp heq with h | h <;> linarith
    · have hvalue := value_strictMono hlt
      refine (hhigh c hc hlt).2 ?_
      rcases abs_eq_abs.mp heq with h | h <;> linarith

/-- A double is the nearest to itself. -/
theorem isNearest_value (hcode : code ≤ infinity) : IsNearest (value code) code where
  le_infinity := hcode
  nearest c hc := by
    rw [sub_self, abs_zero]
    exact abs_nonneg _
  even c hc hne heq := by
    rw [sub_self, abs_zero, abs_eq_zero, sub_eq_zero] at heq
    exact absurd (value_strictMono.injective heq) hne

/-- **Rounding does not change the order.** -/
theorem IsNearest.le_of_le (h : IsNearest q code) (h' : IsNearest q' code') (hq : q ≤ q') :
    code ≤ code' := by
  by_contra hlt
  have hlt : code' < code := Nat.lt_of_not_le hlt
  have hvalue := value_strictMono hlt
  have hnear := h.nearest code' h'.le_infinity
  have hnear' := h'.nearest code h.le_infinity
  -- `q` lies above the middle of the two and `q'` below it, so both are the middle
  have hmiddle : value code + value code' ≤ 2 * q := by
    by_contra hlow
    rw [abs_of_nonneg (a := value code - q) (by linarith), le_abs] at hnear
    rcases hnear with hnear | hnear <;> linarith
  have hmiddle' : 2 * q' ≤ value code + value code' := by
    by_contra hhigh
    rw [abs_of_nonpos (a := value code' - q') (by linarith), le_abs] at hnear'
    rcases hnear' with hnear' | hnear' <;> linarith
  have htie : |value code' - q| = |value code - q| := by
    rw [abs_of_nonpos (by linarith), abs_of_nonneg (by linarith)]
    linarith
  have htie' : |value code - q'| = |value code' - q'| := by
    rw [abs_of_nonneg (by linarith), abs_of_nonpos (by linarith)]
    linarith
  -- so both codes are even, and the double between them is nearer
  have heven := h.even code' h'.le_infinity (by omega) htie
  have heven' := h'.even code h.le_infinity (by omega) htie'
  have hbetween := h.nearest (code' + 1) (by have := h.le_infinity; omega)
  have hleft := value_strictMono (Nat.lt_succ_self code')
  have hright : value (code' + 1) < value code := value_strictMono (by omega)
  rw [abs_of_nonneg (a := value code - q) (by linarith), le_abs] at hbetween
  rcases hbetween with hbetween | hbetween <;> linarith

/-- **A number is rounded to one double alone.** -/
theorem IsNearest.unique (h : IsNearest q code) (h' : IsNearest q code') : code = code' :=
  Nat.le_antisymm (h.le_of_le h' le_rfl) (h'.le_of_le h le_rfl)

/-! ### The rounded quotient -/

/-- A quotient rounded to a whole number lies in the middle of two steps at most. -/
theorem divToEven_spec (num : Nat) {den : Nat} (hden : 0 < den) :
    2 * (divToEven num den * den) ≤ 2 * num + den ∧
      2 * num ≤ 2 * (divToEven num den * den) + den ∧
      (2 * (divToEven num den * den) = 2 * num + den ∨
        2 * num = 2 * (divToEven num den * den) + den → divToEven num den % 2 = 0) := by
  have hsplit : num / den * den + num % den = num := by
    rw [Nat.mul_comm]
    exact Nat.div_add_mod num den
  have hnext : (num / den + 1) * den = num / den * den + den := Nat.succ_mul ..
  have hrest := Nat.mod_lt num hden
  simp only [divToEven]
  split <;> omega

/-- Where rounding puts a fraction before infinity cuts it off: a significand, and the scale at
which the fraction has at most 53 binary digits before the point. -/
structure Placed (num den n s : Nat) : Prop where
  lt : num * 2 ^ (1074 : Nat) < 2 ^ (53 : Nat) * (den * 2 ^ s)
  normal : s = 0 ∨ 2 ^ (52 : Nat) * (den * 2 ^ s) ≤ num * 2 ^ (1074 : Nat)
  eq : n = divToEven (num * 2 ^ (1074 : Nat)) (den * 2 ^ s)

theorem exists_placed (num : Nat) {den : Nat} (hden : 0 < den) :
    ∃ n s, Placed num den n s ∧ round num den = min (s * 2 ^ (52 : Nat) + n) infinity := by
  refine ⟨_, (num * 2 ^ (1074 : Nat) / den).log2 - 52, ⟨?_, ?_, rfl⟩, rfl⟩
  · have hlog := Nat.lt_log2_self (n := num * 2 ^ (1074 : Nat) / den)
    rw [← Nat.mul_assoc, Nat.mul_right_comm, ← Nat.pow_add]
    refine (Nat.div_lt_iff_lt_mul hden).mp (Nat.lt_of_lt_of_le hlog ?_)
    exact Nat.pow_le_pow_right (by decide) (by omega)
  · rcases Nat.eq_zero_or_pos ((num * 2 ^ (1074 : Nat) / den).log2 - 52) with hzero | hpos
    · exact .inl hzero
    · right
      have hne : num * 2 ^ (1074 : Nat) / den ≠ 0 := by
        intro hzero
        rw [hzero, Nat.log2_zero] at hpos
        omega
      have hlog := Nat.log2_self_le hne
      rw [← Nat.mul_assoc, Nat.mul_right_comm, ← Nat.pow_add]
      refine (Nat.le_div_iff_mul_le hden).mp (Nat.le_trans ?_ hlog)
      exact Nat.pow_le_pow_right (by decide) (by omega)

namespace Placed

variable {num den n s : Nat} (h : Placed num den n s) (hden : 0 < den)

include h hden

theorem significand_le : n ≤ 2 ^ (53 : Nat) := by
  have hstep : 0 < den * 2 ^ s := Nat.mul_pos hden (Nat.two_pow_pos s)
  have hlow := (divToEven_spec (num * 2 ^ (1074 : Nat)) hstep).1
  rw [← h.eq] at hlow
  by_contra hn
  have hle : (2 ^ (53 : Nat) + 1) * (den * 2 ^ s) ≤ n * (den * 2 ^ s) :=
    Nat.mul_le_mul_right _ (Nat.lt_of_not_le hn)
  have hlt := h.lt
  rw [Nat.add_mul, Nat.one_mul] at hle
  omega

theorem significand_ge : s = 0 ∨ 2 ^ (52 : Nat) ≤ n := by
  refine h.normal.imp_right fun hnormal => ?_
  have hstep : 0 < den * 2 ^ s := Nat.mul_pos hden (Nat.two_pow_pos s)
  have hhigh := (divToEven_spec (num * 2 ^ (1074 : Nat)) hstep).2.1
  rw [← h.eq] at hhigh
  by_contra hn
  have hle : (n + 1) * (den * 2 ^ s) ≤ 2 ^ (52 : Nat) * (den * 2 ^ s) :=
    Nat.mul_le_mul_right _ (Nat.lt_of_not_le hn)
  rw [Nat.add_mul, Nat.one_mul] at hle
  omega

theorem units_mul : units (s * 2 ^ (52 : Nat) + n) * den = n * (den * 2 ^ s) := by
  rw [units_scale_add (h.significand_le hden) (h.significand_ge hden), Nat.mul_assoc,
    Nat.mul_comm den]

/-- The fraction does not lie below the middle to the double before.  Where a binade starts that
one is nearer, but nothing was rounded up to there. -/
theorem below {c : Nat} (hc : c + 1 = s * 2 ^ (52 : Nat) + n) :
    (units c + units (c + 1)) * den ≤ 2 * (num * 2 ^ (1074 : Nat)) ∧
      ((units c + units (c + 1)) * den = 2 * (num * 2 ^ (1074 : Nat)) → (c + 1) % 2 = 0) := by
  have hle := h.significand_le hden
  have hge := h.significand_ge hden
  have hstep : 0 < den * 2 ^ s := Nat.mul_pos hden (Nat.two_pow_pos s)
  obtain ⟨hlow, -, heven⟩ := divToEven_spec (num * 2 ^ (1074 : Nat)) hstep
  rw [← h.eq] at hlow heven
  have hhere : units (c + 1) * den = n * (den * 2 ^ s) := by
    rw [hc, h.units_mul hden]
  have hnext : units (c + 1) * den = units c * den + den * 2 ^ scale c := by
    rw [units_succ, Nat.add_mul, Nat.mul_comm den]
  rw [Nat.add_mul]
  by_cases hstart : s ≠ 0 ∧ n = 2 ^ (52 : Nat)
  · have hnormal := h.normal.resolve_left hstart.1
    have hpos : 0 < den * 2 ^ scale c := Nat.mul_pos hden (Nat.two_pow_pos _)
    rw [hstart.2] at hhere
    omega
  · have hscale : scale c = s := by
      rw [scale]
      omega
    rw [hscale] at hnext
    omega

/-- The fraction does not lie above the middle to the double behind.  Where a binade ends that one
is farther, and something was rounded up to there. -/
theorem above {c : Nat} (hc : c = s * 2 ^ (52 : Nat) + n) :
    2 * (num * 2 ^ (1074 : Nat)) ≤ (units c + units (c + 1)) * den ∧
      (2 * (num * 2 ^ (1074 : Nat)) = (units c + units (c + 1)) * den → c % 2 = 0) := by
  have hle := h.significand_le hden
  have hge := h.significand_ge hden
  have hstep : 0 < den * 2 ^ s := Nat.mul_pos hden (Nat.two_pow_pos s)
  obtain ⟨-, hhigh, heven⟩ := divToEven_spec (num * 2 ^ (1074 : Nat)) hstep
  rw [← h.eq] at hhigh heven
  have hhere : units c * den = n * (den * 2 ^ s) := by
    rw [hc, h.units_mul hden]
  have hnext : units (c + 1) * den = units c * den + den * 2 ^ scale c := by
    rw [units_succ, Nat.add_mul, Nat.mul_comm den]
  rw [Nat.add_mul]
  by_cases hend : n = 2 ^ (53 : Nat)
  · have hlt := h.lt
    have hpos : 0 < den * 2 ^ scale c := Nat.mul_pos hden (Nat.two_pow_pos _)
    rw [hend] at hhere
    omega
  · have hscale : scale c = s := by
      rw [scale]
      omega
    rw [hscale] at hnext
    omega

end Placed

/-- Middles of two doubles and fractions, over one denominator. -/
theorem value_add_value (a b : Nat) {den : Nat} (hden : 0 < den) :
    value a + value b =
      (((units a + units b) * den : Nat) : ℚ) / ((den : ℚ) * 2 ^ (1074 : Nat)) := by
  have hne : (den : ℚ) ≠ 0 := Nat.cast_ne_zero.mpr (Nat.ne_of_gt hden)
  rw [value, value]
  push_cast
  field_simp

theorem two_mul_div (num : Nat) {den : Nat} (hden : 0 < den) :
    2 * ((num : ℚ) / den) =
      ((2 * (num * 2 ^ (1074 : Nat)) : Nat) : ℚ) / ((den : ℚ) * 2 ^ (1074 : Nat)) := by
  have hne : (den : ℚ) ≠ 0 := Nat.cast_ne_zero.mpr (Nat.ne_of_gt hden)
  simp only [Nat.cast_mul, Nat.cast_pow, Nat.cast_ofNat]
  field_simp

/-- **Rounding is correct.** -/
theorem isNearest_round (num : Nat) {den : Nat} (hden : 0 < den) :
    IsNearest (num / den) (round num den) := by
  have hscale : (0 : ℚ) < (den : ℚ) * 2 ^ (1074 : Nat) := by positivity
  obtain ⟨n, s, hplaced, hround⟩ := exists_placed num hden
  have hbelow : ∀ c, c + 1 = s * 2 ^ (52 : Nat) + n →
      value c + value (c + 1) ≤ 2 * ((num : ℚ) / den) ∧
        (value c + value (c + 1) = 2 * ((num : ℚ) / den) → (c + 1) % 2 = 0) := by
    intro c hc
    rw [value_add_value _ _ hden, two_mul_div _ hden, div_le_div_iff_of_pos_right hscale,
      div_left_inj' (ne_of_gt hscale), Nat.cast_le, Nat.cast_inj]
    exact hplaced.below hden hc
  have habove : ∀ c, c = s * 2 ^ (52 : Nat) + n →
      2 * ((num : ℚ) / den) ≤ value c + value (c + 1) ∧
        (2 * ((num : ℚ) / den) = value c + value (c + 1) → c % 2 = 0) := by
    intro c hc
    rw [value_add_value _ _ hden, two_mul_div _ hden, div_le_div_iff_of_pos_right hscale,
      div_left_inj' (ne_of_gt hscale), Nat.cast_le, Nat.cast_inj]
    exact hplaced.above hden hc
  rw [hround]
  rcases Nat.lt_or_ge infinity (s * 2 ^ (52 : Nat) + n) with hlt | hle
  · -- what lies beyond infinity is nearer to it than to any finite double
    rw [Nat.min_eq_right (Nat.le_of_lt hlt)]
    obtain ⟨c, hc⟩ : ∃ c, c + 1 = s * 2 ^ (52 : Nat) + n := ⟨s * 2 ^ (52 : Nat) + n - 1, by omega⟩
    refine .of_neighbours le_rfl (fun p hp => ⟨?_, fun _ => by decide⟩)
      fun h => absurd h (Nat.lt_irrefl _)
    have hp' : value p ≤ value c := value_strictMono.monotone (by omega)
    have hc' : value infinity ≤ value (c + 1) := value_strictMono.monotone (by omega)
    linarith [(hbelow c hc).1]
  · rw [Nat.min_eq_left hle]
    exact .of_neighbours hle (fun c hc => by rw [← hc]; exact hbelow c hc)
      fun _ => habove _ rfl

theorem isNearest_infinity (h : value infinity ≤ q) : IsNearest q infinity := by
  refine .of_neighbours le_rfl (fun c hc => ⟨?_, fun _ => by decide⟩)
    fun h => absurd h (Nat.lt_irrefl _)
  have hbelow : value c < value infinity := value_strictMono (by omega)
  linarith

theorem isNearest_zero (h : 2 * q ≤ value 1) : IsNearest q 0 := by
  refine .of_neighbours (Nat.zero_le _) (fun c hc => absurd hc (Nat.succ_ne_zero c))
    fun _ => ⟨?_, fun _ => rfl⟩
  rw [value_zero, Nat.zero_add]
  linarith

theorem value_succ (c : Nat) :
    value (c + 1) = value c + (2 ^ scale c : Nat) / 2 ^ (1074 : Nat) := by
  rw [value, value, units_succ, Nat.cast_add, add_div]

/-- A double is as many steps above zero as its significand says, if they are all as large as the
step to the next one. -/
theorem mul_step_le {n c : Nat} (h : n ≤ significand c) :
    n * (value (c + 1) - value c) ≤ value c := by
  rw [value_succ, add_sub_cancel_left, ← mul_div_assoc, value]
  refine div_le_div_of_nonneg_right ?_ (by positivity)
  exact_mod_cast Nat.mul_le_mul_right (2 ^ scale c) h

/-- A significand has at most 53 digits, so no step is smaller than that part of a double. -/
theorem value_succ_le (c : Nat) :
    value (c + 1) ≤ 2 ^ (53 : Nat) * (value (c + 1) - value c) := by
  have hunits : units c + 2 ^ scale c ≤ 2 ^ (53 : Nat) * 2 ^ scale c := by
    rw [units, ← Nat.succ_mul]
    exact Nat.mul_le_mul_right _ (significand_lt c)
  rw [value_succ, add_sub_cancel_left, ← mul_div_assoc, value, ← add_div]
  refine div_le_div_of_nonneg_right ?_ (by positivity)
  exact_mod_cast hunits

/-- A double is the nearest to whatever lies closer to it than half of its smallest step. -/
theorem IsNearest.of_abs_sub_lt (hcode : code ≤ infinity)
    (h : |q - value code| * 2 ^ (54 : Nat) < value code) : IsNearest q code := by
  have hle := le_abs_self (q - value code)
  have hge := neg_abs_le (q - value code)
  refine .of_neighbours hcode (fun c hc => ?_) fun _ => ?_
  · subst hc
    have hstep := value_succ_le c
    norm_num at h hstep
    exact ⟨by linarith, fun heq => by linarith⟩
  · have hstep := value_succ_le code
    have hnext := value_strictMono (Nat.lt_succ_self code)
    norm_num at h hstep
    exact ⟨by linarith, fun heq => by linarith⟩

end Reckon.Binary64

namespace Reckon.Decimal

open Binary64 (IsNearest infinity)

-- Powers are those of the core library, also where another library brings its own.
attribute [local instance (high)] instPowNat

/-- The number that a decimal stands for. -/
def value (d : Decimal) : ℚ := d.digits * 10 ^ d.exponent

theorem value_eq_div (d : Decimal) :
    d.value = ((d.digits * 10 ^ d.exponent.toNat : Nat) : ℚ) /
      ((10 ^ (-d.exponent).toNat : Nat) : ℚ) := by
  rw [value, Nat.cast_mul, Nat.cast_pow, Nat.cast_pow, Nat.cast_ofNat]
  obtain ⟨n, hn | hn⟩ := d.exponent.eq_nat_or_neg
  · have hnone : (-(n : Int)).toNat = 0 := by omega
    rw [hn, Int.toNat_natCast, hnone, pow_zero, div_one, zpow_natCast]
  · have hnone : (-(n : Int)).toNat = 0 := by omega
    rw [hn, neg_neg, Int.toNat_natCast, hnone, pow_zero, mul_one, zpow_neg, zpow_natCast,
      div_eq_mul_inv]

theorem isNearest_of_bounds {d : Decimal}
    (hlow : -((d.digits.log2 + 400 : Nat) : Int) ≤ d.exponent) (hhigh : d.exponent ≤ 400) :
    IsNearest d.value d.nearest := by
  rw [nearest_eq_round hlow hhigh, value_eq_div]
  exact Binary64.isNearest_round _ (Nat.pow_pos (by decide))

/-- A power of ten beyond the doubles is infinite, with any digits before it. -/
theorem isNearest_infinity {d : Decimal} {k : Nat}
    (hk : Binary64.units infinity ≤ 10 ^ k * 2 ^ (1074 : Nat)) (hdigits : 0 < d.digits)
    (hexponent : k ≤ d.exponent) : IsNearest d.value infinity := by
  have hvalue : Binary64.value infinity ≤ 10 ^ k := by
    rw [Binary64.value, div_le_iff₀ (by positivity)]
    simpa only [Nat.cast_mul, Nat.cast_pow, Nat.cast_ofNat] using Nat.cast_le (α := ℚ).mpr hk
  have hpower : (10 : ℚ) ^ k ≤ 10 ^ d.exponent := by
    rw [← zpow_natCast]
    exact zpow_le_zpow_right₀ (by norm_num) hexponent
  have hone : (1 : ℚ) ≤ d.digits := Nat.one_le_cast.mpr hdigits
  exact Binary64.isNearest_infinity
    (hvalue.trans (hpower.trans (le_mul_of_one_le_left (by positivity) hone)))

/-- A power of ten below the doubles is zero, if its exponent makes up for the digits too. -/
theorem isNearest_zero {d : Decimal} {k : Nat} (hk : 4 * 2 ^ (1074 : Nat) ≤ 10 ^ k)
    (hexponent : d.exponent ≤ -((d.digits.log2 + k : Nat) : Int)) : IsNearest d.value 0 := by
  have hdigits : (d.digits : ℚ) ≤ 2 * 10 ^ d.digits.log2 := by
    have hlog : d.digits ≤ 2 * 10 ^ d.digits.log2 := by
      have hlt := Nat.lt_log2_self (n := d.digits)
      have htens : 2 ^ d.digits.log2 ≤ 10 ^ d.digits.log2 := Nat.pow_le_pow_left (by decide) _
      rw [Nat.pow_succ] at hlt
      omega
    exact_mod_cast hlog
  have hpower : (10 : ℚ) ^ d.exponent ≤ (10 ^ d.digits.log2 * 10 ^ k)⁻¹ := by
    rw [← pow_add, ← zpow_natCast, ← zpow_neg]
    exact zpow_le_zpow_right₀ (by norm_num) hexponent
  refine Binary64.isNearest_zero ?_
  calc 2 * d.value
      ≤ 2 * (2 * 10 ^ d.digits.log2 * (10 ^ d.digits.log2 * 10 ^ k)⁻¹) := by
        rw [value]
        gcongr
    _ = 4 / 10 ^ k := by
        field_simp
        norm_num
    _ ≤ 1 / 2 ^ (1074 : Nat) := by
        rw [div_le_div_iff₀ (by positivity) (by positivity), one_mul]
        simpa only [Nat.cast_mul, Nat.cast_pow, Nat.cast_ofNat] using Nat.cast_le (α := ℚ).mpr hk
    _ = Binary64.value 1 := by
        simp [Binary64.value, Binary64.units, Binary64.significand, Binary64.scale]

/-- **A decimal is rounded correctly**, however large its exponent is. -/
theorem isNearest_nearest (d : Decimal) : IsNearest d.value d.nearest := by
  rcases Nat.eq_zero_or_pos d.digits with hzero | hdigits
  · have hvalue : d.value = 0 := by rw [value, hzero, Nat.cast_zero, zero_mul]
    have hnearest : d.nearest = 0 := by
      simp only [nearest, hzero, Nat.zero_mul, Binary64.round_zero]
    rw [hvalue, hnearest]
    exact Binary64.isNearest_zero (by
      rw [mul_zero]
      exact (Binary64.value_zero ▸ Binary64.value_strictMono Nat.one_pos).le)
  -- an exponent out of bounds is rounded as the bound, and so is the decimal that has the bound
  rcases lt_or_ge 400 d.exponent with hlarge | hhigh
  · have hsame : d.nearest = nearest ⟨d.digits, 400⟩ := by
      simp only [nearest, min_eq_right hlarge.le, min_self]
    have hbound := isNearest_of_bounds (d := ⟨d.digits, 400⟩) (by simp only; omega) le_rfl
    have hinfinity : nearest ⟨d.digits, 400⟩ = infinity :=
      hbound.unique (isNearest_infinity (k := 400) (by decide +kernel) hdigits le_rfl)
    rw [hsame, hinfinity]
    exact isNearest_infinity (k := 400) (by decide +kernel) hdigits hlarge.le
  rcases lt_or_ge d.exponent (-((d.digits.log2 + 400 : Nat) : Int)) with hsmall | hlow
  · have hsame : d.nearest = nearest ⟨d.digits, -((d.digits.log2 + 400 : Nat) : Int)⟩ := by
      simp only [nearest, min_eq_left hhigh]
      rw [max_eq_left hsmall.le, min_eq_left (by omega), max_self]
    have hbound := isNearest_of_bounds
      (d := ⟨d.digits, -((d.digits.log2 + 400 : Nat) : Int)⟩) le_rfl (by simp only; omega)
    have hzero : nearest ⟨d.digits, -((d.digits.log2 + 400 : Nat) : Int)⟩ = 0 :=
      hbound.unique (isNearest_zero (k := 400) (by decide +kernel) le_rfl)
    rw [hsame, hzero]
    exact isNearest_zero (k := 400) (by decide +kernel) hsmall.le
  · exact isNearest_of_bounds hlow hhigh

end Reckon.Decimal
