import Mathlib
import Reckon.Proofs.Numeral.Rounding

/-!
# The shortest decimal is the shortest

The cuts of an expansion are the points of ever finer grids around the double.  What reads back
and has no more digits than a cut lies beyond the two points next to the double, so the nearer of
these reads back as well.  The first cut that reads back therefore has the fewest digits, and it
is the nearest of those that have so few.

## Main definitions

* `Decimal.below code drop`, `Decimal.above code drop` — the two points next to a double.
* `Decimal.IsShortest d code` — nothing that is rounded to the double is shorter, or as short and
  nearer.

## Main results

* `Decimal.digitCount_spec` — the estimate of the number of digits is right.
* `Decimal.le_below_or_above_le` — no decimal with so few digits lies between the two points.
* `Decimal.isSome_cut?_seventeen` — seventeen digits are always enough.
* `Decimal.length_shortest_le_seventeen` — **at most seventeen digits are written**.
* `Decimal.isShortest_shortest` — **the shortest decimal is the shortest**.
-/

namespace Reckon.Decimal

open Binary64 (IsNearest infinity units)

-- Powers are those of the core library, also where another library brings its own.
attribute [local instance (high)] instPowNat

variable {code drop : Nat} {d d' : Decimal}

/-! ### The values of decimals -/

/-- A trailing zero moves between the digits and the exponent. -/
theorem value_shift (digits zeros : Nat) (exponent : Int) :
    value ⟨digits * 10 ^ zeros, exponent⟩ = value ⟨digits, exponent + zeros⟩ := by
  simp only [value, Nat.cast_mul, Nat.cast_pow, Nat.cast_ofNat]
  rw [zpow_add₀ (by norm_num), zpow_natCast]
  ring

theorem value_add (a b : Nat) (exponent : Int) :
    value ⟨a + b, exponent⟩ = value ⟨a, exponent⟩ + value ⟨b, exponent⟩ := by
  simp only [value, Nat.cast_add, add_mul]

theorem value_mul (n digits : Nat) (exponent : Int) :
    value ⟨n * digits, exponent⟩ = n * value ⟨digits, exponent⟩ := by
  simp only [value, Nat.cast_mul, mul_assoc]

theorem value_nonneg (d : Decimal) : 0 ≤ d.value := by
  rw [value]
  positivity

theorem value_pos (h : 0 < d.digits) : 0 < d.value := by
  rw [value]
  positivity

theorem value_le_of_exponent_le (digits : Nat) {a b : Int} (h : a ≤ b) :
    value ⟨digits, a⟩ ≤ value ⟨digits, b⟩ := by
  simp only [value]
  exact mul_le_mul_of_nonneg_left (zpow_le_zpow_right₀ (by norm_num) h) (Nat.cast_nonneg _)

theorem value_le_value_iff {a b : Nat} {exponent : Int} :
    value ⟨a, exponent⟩ ≤ value ⟨b, exponent⟩ ↔ a ≤ b := by
  simp only [value]
  rw [mul_le_mul_iff_of_pos_right (by positivity), Nat.cast_le]

theorem value_lt_value_iff {a b : Nat} {exponent : Int} :
    value ⟨a, exponent⟩ < value ⟨b, exponent⟩ ↔ a < b := by
  simp only [value]
  rw [mul_lt_mul_iff_of_pos_right (by positivity), Nat.cast_lt]

/-- The expansion of a double is exact. -/
theorem value_expansion (code : Nat) : (expansion code).value = Binary64.value code := by
  have hunit : ∀ n : ℕ, (5 : ℚ) ^ n * 10 ^ (-(n : ℤ)) = (2 ^ n)⁻¹ := by
    intro n
    rw [zpow_neg, zpow_natCast, show (10 : ℚ) = 5 * 2 by norm_num, mul_pow, mul_inv,
      mul_inv_cancel_left₀ (by positivity)]
  simp only [value, expansion, Binary64.value, Nat.cast_mul, Nat.cast_pow, Nat.cast_ofNat]
  rw [mul_assoc, div_eq_mul_inv, ← hunit 1074]
  rfl

/-! ### What lies between decimals that read back -/

/-- A decimal reads back as the double that its number is to be rounded to. -/
theorem nearest_eq_iff : d.nearest = code ↔ IsNearest d.value code := by
  constructor
  · rintro rfl
    exact isNearest_nearest d
  · exact (isNearest_nearest d).unique

theorem nearest_mono (h : d.value ≤ d'.value) : d.nearest ≤ d'.nearest :=
  (isNearest_nearest d).le_of_le (isNearest_nearest d') h

theorem nearest_congr (h : d.value = d'.value) : d.nearest = d'.nearest :=
  Nat.le_antisymm (nearest_mono h.le) (nearest_mono h.ge)

/-- What lies between a double and a decimal that reads back as it reads back too. -/
theorem nearest_of_between {c : Decimal} (hcode : code ≤ infinity) (hd : d.nearest = code)
    (h : d.value ≤ c.value ∧ c.value ≤ Binary64.value code ∨
      Binary64.value code ≤ c.value ∧ c.value ≤ d.value) : c.nearest = code := by
  have hself := Binary64.isNearest_value hcode
  have hc := isNearest_nearest c
  rcases h with ⟨hdc, hce⟩ | ⟨hec, hcd⟩
  · exact Nat.le_antisymm (hc.le_of_le hself hce) (hd ▸ nearest_mono hdc)
  · exact Nat.le_antisymm (hd ▸ nearest_mono hcd) (hself.le_of_le hc hec)

/-! ### The number of digits -/

/-- **The estimate of the number of digits is right** for numbers below `2 ^ 10000`. -/
theorem digitCount_spec {n : Nat} (hpos : 0 < n) (hlog : n.log2 < 10000) :
    10 ^ (digitCount n - 1) ≤ n ∧ n < 10 ^ digitCount n := by
  obtain ⟨low, hlow⟩ : ∃ low, low = n.log2 * 30102 / 100000 := ⟨_, rfl⟩
  -- `59 / 196` and `28 / 93` are a little below and a little above the logarithm of two
  have hbelow : 10 ^ low ≤ n := by
    refine Nat.le_trans ?_ (Nat.log2_self_le (Nat.ne_of_gt hpos))
    refine (Nat.pow_le_pow_iff_left (n := 59) (by decide)).mp ?_
    calc (10 ^ low) ^ 59 = (10 ^ 59) ^ low := Nat.pow_right_comm ..
      _ ≤ (2 ^ 196) ^ low := Nat.pow_le_pow_left (by decide) low
      _ = 2 ^ (196 * low) := (Nat.pow_mul ..).symm
      _ ≤ 2 ^ (n.log2 * 59) := Nat.pow_le_pow_right (by decide) (by omega)
      _ = (2 ^ n.log2) ^ 59 := Nat.pow_mul ..
  have habove : n < 10 ^ (low + 2) := by
    refine Nat.lt_of_lt_of_le Nat.lt_log2_self ?_
    refine (Nat.pow_le_pow_iff_left (n := 28) (by decide)).mp ?_
    calc (2 ^ (n.log2 + 1)) ^ 28 = 2 ^ ((n.log2 + 1) * 28) := (Nat.pow_mul ..).symm
      _ ≤ 2 ^ (93 * (low + 2)) := Nat.pow_le_pow_right (by decide) (by omega)
      _ = (2 ^ 93) ^ (low + 2) := Nat.pow_mul ..
      _ ≤ (10 ^ 28) ^ (low + 2) := Nat.pow_le_pow_left (by decide) _
      _ = (10 ^ (low + 2)) ^ 28 := Nat.pow_right_comm ..
  simp only [digitCount, ← hlow]
  split
  · next hlt => exact ⟨hbelow, hlt⟩
  · next hge => exact ⟨Nat.le_of_not_lt hge, habove⟩

/-- The number of digits of the expansion of a double. -/
def total (code : Nat) : Nat := digitCount (expansion code).digits

theorem expansion_digits_pos (hpos : 0 < code) : 0 < (expansion code).digits := by
  have hfives : ∀ n : Nat, 0 < 5 ^ n := fun n => Nat.pow_pos (by decide)
  exact Nat.mul_pos (Binary64.units_pos hpos) (hfives 1074)

theorem total_spec (hpos : 0 < code) (hcode : code ≤ infinity) :
    10 ^ (total code - 1) ≤ (expansion code).digits ∧
      (expansion code).digits < 10 ^ total code := by
  have hdigits := expansion_digits_pos hpos
  have hlarge : units infinity * 5 ^ (1074 : Nat) < 2 ^ (10000 : Nat) := by decide +kernel
  have hmono : (expansion code).digits ≤ units infinity * 5 ^ (1074 : Nat) :=
    Nat.mul_le_mul (Binary64.units_strictMono.monotone hcode) le_rfl
  exact digitCount_spec hdigits
    ((Nat.log2_lt (Nat.ne_of_gt hdigits)).mpr (Nat.lt_of_le_of_lt hmono hlarge))

/-! ### The two points next to a double -/

/-- The expansion of a double with its last digits left out. -/
def below (code drop : Nat) : Decimal :=
  ⟨(expansion code).digits / 10 ^ drop, (expansion code).exponent + drop⟩

/-- The successor of the expansion of a double with its last digits left out. -/
def above (code drop : Nat) : Decimal :=
  ⟨(expansion code).digits / 10 ^ drop + 1, (expansion code).exponent + drop⟩

theorem below_eq_expansion (code : Nat) : below code 0 = expansion code := by
  simp [below]

/-- How far the double lies above the first point, in the last place of its expansion. -/
def rest (code drop : Nat) : Nat := (expansion code).digits % 10 ^ drop

theorem value_eq_below_add (code drop : Nat) : Binary64.value code =
    (below code drop).value + value ⟨rest code drop, (expansion code).exponent⟩ := by
  rw [← value_expansion, below, ← value_shift, ← value_add, rest, Nat.div_add_mod']

theorem above_eq_value_add (code drop : Nat) : (above code drop).value =
    Binary64.value code + value ⟨10 ^ drop - rest code drop, (expansion code).exponent⟩ := by
  have hrest : rest code drop < 10 ^ drop := Nat.mod_lt _ (Nat.pow_pos (by decide))
  rw [value_eq_below_add code drop, add_assoc, ← value_add, Nat.add_sub_cancel' hrest.le, above,
    below, ← value_shift, ← value_shift, ← value_add, Nat.succ_mul]

theorem below_le_value (code drop : Nat) : (below code drop).value ≤ Binary64.value code := by
  rw [value_eq_below_add code drop]
  exact le_add_of_nonneg_right (value_nonneg _)

theorem value_lt_above (code drop : Nat) : Binary64.value code < (above code drop).value := by
  have hrest : rest code drop < 10 ^ drop := Nat.mod_lt _ (Nat.pow_pos (by decide))
  rw [above_eq_value_add]
  exact lt_add_of_pos_right _ (value_pos (Nat.sub_pos_of_lt hrest))

/-- **No decimal with so few digits lies between the two points.** -/
theorem le_below_or_above_le (hpos : 0 < code) (hcode : code ≤ infinity)
    (hdrop : drop < total code) (hd : d.digits < 10 ^ (total code - drop)) :
    d.value ≤ (below code drop).value ∨ (above code drop).value ≤ d.value := by
  obtain ⟨digits, exponent⟩ := d
  rcases lt_or_ge exponent ((expansion code).exponent + drop) with hlt | hge
  · -- finer than the grid: such a decimal is below the leading power of ten
    left
    obtain ⟨kept, hkept⟩ : ∃ kept, total code = kept + 1 + drop :=
      ⟨total code - drop - 1, by omega⟩
    have hleading : 10 ^ kept ≤ (expansion code).digits / 10 ^ drop := by
      have hle := (total_spec hpos hcode).1
      rw [hkept, Nat.add_right_comm, Nat.add_sub_cancel, Nat.pow_add] at hle
      exact (Nat.le_div_iff_mul_le (Nat.pow_pos (by decide))).mpr hle
    have hdigits : digits ≤ 10 ^ kept * 10 ^ 1 := by
      rw [hkept, Nat.add_sub_cancel, Nat.pow_succ] at hd
      exact hd.le
    calc value ⟨digits, exponent⟩
        ≤ value ⟨10 ^ kept * 10 ^ 1, exponent⟩ := value_le_value_iff.mpr hdigits
      _ = value ⟨10 ^ kept, exponent + 1⟩ := value_shift ..
      _ ≤ value ⟨10 ^ kept, (expansion code).exponent + drop⟩ :=
        value_le_of_exponent_le _ (by omega)
      _ ≤ (below code drop).value := value_le_value_iff.mpr hleading
  · -- a point of the grid
    obtain ⟨zeros, rfl⟩ := Int.le.dest hge
    rw [← value_shift, below, above, value_le_value_iff, value_le_value_iff]
    omega

/-! ### Cuts that read back -/

theorem cut?_eq (code drop : Nat) : cut? code drop =
    if (above code drop).nearest = code ∧
        (10 ^ drop ≤ 2 * rest code drop ∨ (below code drop).nearest ≠ code) then
      some (above code drop)
    else if (below code drop).nearest = code then some (below code drop)
    else none := rfl

theorem isSome_cut?_iff : (cut? code drop).isSome ↔
    (below code drop).nearest = code ∨ (above code drop).nearest = code := by
  rw [cut?_eq]
  split
  · next habove => simp [habove.1]
  · next hnot =>
    split
    · next hbelow => simp [hbelow]
    · next hbelow =>
      have habove : (above code drop).nearest ≠ code := fun h => hnot ⟨h, .inr hbelow⟩
      simp [hbelow, habove]

/-- Nothing left out reads back. -/
theorem isSome_cut?_zero (hpos : 0 < code) (hcode : code ≤ infinity) : (cut? code 0).isSome := by
  rw [isSome_cut?_iff, below_eq_expansion]
  exact .inl (nearest_expansion hpos hcode)

/-- **A cut reads back if any decimal of so many digits does.** -/
theorem isSome_cut?_of_nearest (hpos : 0 < code) (hcode : code ≤ infinity) {kept : Nat}
    (hkept : 0 < kept) (hd : d.nearest = code) (hdigits : d.digits < 10 ^ kept) :
    (cut? code (total code - kept)).isSome := by
  rcases Nat.lt_or_ge kept (total code) with hlt | hge
  · have hdrop : total code - (total code - kept) = kept := by omega
    rw [← hdrop] at hdigits
    rw [isSome_cut?_iff]
    refine (le_below_or_above_le hpos hcode (by omega) hdigits).imp (fun h => ?_) fun h => ?_
    · exact nearest_of_between hcode hd (.inl ⟨h, below_le_value _ _⟩)
    · exact nearest_of_between hcode hd (.inr ⟨(value_lt_above _ _).le, h⟩)
  · rw [Nat.sub_eq_zero_of_le hge]
    exact isSome_cut?_zero hpos hcode

/-- What is off by less than half of the smallest step reads back. -/
theorem nearest_of_abs_sub {c : Decimal} {r : Nat} (hcode : code ≤ infinity)
    (h : |c.value - Binary64.value code| = value ⟨r, (expansion code).exponent⟩)
    (hr : r * 2 ^ (54 : Nat) < (expansion code).digits) : c.nearest = code := by
  refine nearest_eq_iff.mpr (.of_abs_sub_lt hcode ?_)
  rw [h, ← value_expansion]
  calc value ⟨r, (expansion code).exponent⟩ * 2 ^ (54 : Nat)
      = value ⟨r * 2 ^ (54 : Nat), (expansion code).exponent⟩ := by
        simp only [value, Nat.cast_mul, Nat.cast_pow, Nat.cast_ofNat]
        ring
    _ < value (expansion code) := value_lt_value_iff.mpr hr

/-- Seventeen digits are always enough.  The nearer of the two points is off by half a unit
in the seventeenth digit at most, and so much is always less than half a step of the doubles. -/
theorem isSome_cut?_seventeen (hpos : 0 < code) (hcode : code ≤ infinity) :
    (cut? code (total code - 17)).isSome := by
  rcases Nat.lt_or_ge 17 (total code) with hlt | hge
  · obtain ⟨drop, hdrop⟩ : ∃ drop, total code - 17 = drop := ⟨_, rfl⟩
    have hlarge : 10 ^ (16 : Nat) * 10 ^ drop ≤ (expansion code).digits := by
      rw [← Nat.pow_add]
      exact Nat.le_trans (Nat.pow_le_pow_right (by decide) (by omega)) (total_spec hpos hcode).1
    have hrest : rest code drop < 10 ^ drop := Nat.mod_lt _ (Nat.pow_pos (by decide))
    rw [hdrop, isSome_cut?_iff]
    rcases Nat.le_total (2 * rest code drop) (10 ^ drop) with hle | hle
    · left
      refine nearest_of_abs_sub hcode (r := rest code drop) ?_ (by omega)
      rw [value_eq_below_add code drop, sub_add_cancel_left, abs_neg,
        abs_of_nonneg (value_nonneg _)]
    · right
      refine nearest_of_abs_sub hcode (r := 10 ^ drop - rest code drop) ?_ (by omega)
      rw [above_eq_value_add, add_sub_cancel_left, abs_of_nonneg (value_nonneg _)]
  · rw [Nat.sub_eq_zero_of_le hge]
    exact isSome_cut?_zero hpos hcode

/-! ### The search -/

/-- A search along the numbers from zero stops at the first one that gives something. -/
theorem exists_of_findSome?_range {α : Type} {f : Nat → Option α} {n : Nat} {a : α}
    (h : (List.range n).findSome? f = some a) : ∃ k < n, f k = some a ∧ ∀ j < k, f j = none := by
  induction n with
  | zero => cases h
  | succ n ih =>
    rw [List.range_succ, List.findSome?_append, Option.or_eq_some_iff] at h
    rcases h with h | ⟨hnone, h⟩
    · obtain ⟨k, hk, hfound⟩ := ih h
      exact ⟨k, Nat.lt_succ_of_lt hk, hfound⟩
    · refine ⟨n, Nat.lt_succ_self n, by simpa using h, fun j hj => ?_⟩
      exact List.findSome?_eq_none_iff.mp hnone j (List.mem_range.mpr hj)

/-- The search ends at the first cut that reads back, and it always finds one. -/
theorem exists_cut?_shortest (hpos : 0 < code) (hcode : code ≤ infinity) :
    ∃ kept < 18, cut? code (total code - kept) = some (shortest code) ∧
      ∀ j < kept, cut? code (total code - j) = none := by
  obtain ⟨d, hd⟩ : ∃ d, (List.range 18).findSome? (fun kept => cut? code (total code - kept)) =
      some d := by
    rw [← Option.isSome_iff_exists, List.findSome?_isSome_iff]
    exact ⟨17, by decide, isSome_cut?_seventeen hpos hcode⟩
  have hshortest : shortest code = d := by
    rw [shortest, if_neg (Nat.ne_of_gt hpos)]
    show Option.getD ((List.range 18).findSome? fun kept => cut? code (total code - kept))
      (expansion code) = d
    rw [hd, Option.getD_some]
  rw [hshortest]
  exact exists_of_findSome?_range hd

/-! ### The fewest digits -/

/-- What was chosen among the two points next to a double. -/
theorem cases_of_cut? (h : cut? code drop = some d) :
    d = above code drop ∧ (above code drop).nearest = code ∧
        (10 ^ drop ≤ 2 * rest code drop ∨ (below code drop).nearest ≠ code) ∨
      d = below code drop ∧ (below code drop).nearest = code ∧
        ((above code drop).nearest = code → 2 * rest code drop < 10 ^ drop) := by
  rw [cut?_eq] at h
  split at h
  · next habove =>
    cases h
    exact .inl ⟨rfl, habove⟩
  · next hnot =>
    split at h
    · next hbelow =>
      cases h
      refine .inr ⟨rfl, hbelow, fun habove => ?_⟩
      by_contra hle
      exact hnot ⟨habove, .inl (Nat.le_of_not_lt hle)⟩
    · cases h

/-- The first point above that has no digit kept is a power of ten. -/
theorem above_total (hpos : 0 < code) (hcode : code ≤ infinity) :
    above code (total code) = ⟨1, (expansion code).exponent + total code⟩ := by
  rw [above, Nat.div_eq_of_lt (total_spec hpos hcode).2, Nat.zero_add]

theorem kept_le_total (hpos : 0 < code) (hcode : code ≤ infinity) {kept : Nat}
    (hfirst : ∀ j < kept, cut? code (total code - j) = none) : kept ≤ total code := by
  by_contra hlt
  have hnone := hfirst (total code) (Nat.lt_of_not_le hlt)
  have hsome := isSome_cut?_zero hpos hcode
  rw [Nat.sub_self] at hnone
  rw [hnone] at hsome
  cases hsome

/-- The first cut that reads back has no more digits than were kept.  A successor that has one
more is a power of ten, and would have been met before any digit was kept. -/
theorem digits_lt_of_first (hpos : 0 < code) (hcode : code ≤ infinity) {kept : Nat}
    (hcut : cut? code (total code - kept) = some d)
    (hfirst : ∀ j < kept, cut? code (total code - j) = none) : d.digits < 10 ^ max kept 1 := by
  have hkept := kept_le_total hpos hcode hfirst
  have hquotient : (expansion code).digits / 10 ^ (total code - kept) < 10 ^ kept := by
    rw [Nat.div_lt_iff_lt_mul (Nat.pow_pos (by decide)), ← Nat.pow_add, Nat.add_sub_cancel' hkept]
    exact (total_spec hpos hcode).2
  rcases Nat.eq_zero_or_pos kept with rfl | hone
  · have hle : d.digits ≤ 1 := by
      rcases cases_of_cut? hcut with ⟨rfl, -⟩ | ⟨rfl, -⟩ <;> simp only [above, below] <;> omega
    exact Nat.lt_of_le_of_lt hle (by decide)
  rw [Nat.max_eq_left hone]
  rcases cases_of_cut? hcut with ⟨rfl, hnearest, -⟩ | ⟨rfl, -⟩
  · refine Nat.lt_of_le_of_ne hquotient fun heq => ?_
    have hvalue : (above code (total code)).value = (above code (total code - kept)).value := by
      have hdigits : (expansion code).digits / 10 ^ (total code - kept) + 1 = 1 * 10 ^ kept := by
        rw [Nat.one_mul]
        exact heq
      have hexponent : ((total code - kept : Nat) : Int) + kept = total code := by omega
      rw [above_total hpos hcode, above, hdigits, value_shift, add_assoc, hexponent]
    have hsome : (cut? code (total code - 0)).isSome :=
      isSome_cut?_iff.mpr (.inr ((nearest_congr hvalue).trans hnearest))
    rw [hfirst 0 hone] at hsome
    cases hsome
  · exact hquotient

/-- **Nothing that reads back has fewer digits than the shortest decimal.** -/
theorem length_shortest_le (hpos : 0 < code) (hcode : code ≤ infinity) (hd : d.nearest = code) :
    (Nat.toDigits 10 (shortest code).digits).length ≤ (Nat.toDigits 10 d.digits).length := by
  obtain ⟨kept, -, hcut, hfirst⟩ := exists_cut?_shortest hpos hcode
  have hlength : 0 < (Nat.toDigits 10 d.digits).length := Nat.length_toDigits_pos
  have hdigits := (Nat.length_toDigits_le_iff (by decide) hlength).mp le_rfl
  have hkept : kept ≤ (Nat.toDigits 10 d.digits).length := by
    by_contra hlt
    have hsome := isSome_cut?_of_nearest hpos hcode hlength hd hdigits
    rw [hfirst _ (Nat.lt_of_not_le hlt)] at hsome
    cases hsome
  refine (Nat.length_toDigits_le_iff (by decide) hlength).mpr ?_
  exact Nat.lt_of_lt_of_le (digits_lt_of_first hpos hcode hcut hfirst)
    (Nat.pow_le_pow_right (by decide) (by omega))

/-- **At most seventeen digits are written.** -/
theorem length_shortest_le_seventeen (hpos : 0 < code) (hcode : code ≤ infinity) :
    (Nat.toDigits 10 (shortest code).digits).length ≤ 17 := by
  obtain ⟨kept, hkept, hcut, hfirst⟩ := exists_cut?_shortest hpos hcode
  refine (Nat.length_toDigits_le_iff (by decide) (by decide)).mpr ?_
  exact Nat.lt_of_lt_of_le (digits_lt_of_first hpos hcode hcut hfirst)
    (Nat.pow_le_pow_right (by decide) (by omega))

/-! ### The nearest of the shortest -/

/-- The nearer of the two points that read back was chosen, and what lies beyond them is farther
away than one of them. -/
theorem abs_sub_le_of_cut? (hcode : code ≤ infinity) (hcut : cut? code drop = some d)
    (hd' : d'.nearest = code)
    (hbeyond : d'.value ≤ (below code drop).value ∨ (above code drop).value ≤ d'.value) :
    |d.value - Binary64.value code| ≤ |d'.value - Binary64.value code| := by
  have hbelow := value_eq_below_add code drop
  have habove := above_eq_value_add code drop
  have hlow := below_le_value code drop
  have hhigh := value_lt_above code drop
  rcases hbeyond with hle | hle
  · have hreads := nearest_of_between hcode hd' (.inl ⟨hle, hlow⟩)
    rw [abs_of_nonpos (a := d'.value - _) (by linarith)]
    rcases cases_of_cut? hcut with ⟨rfl, -, hhalf | hnot⟩ | ⟨rfl, -⟩
    · have hnear : value ⟨10 ^ drop - rest code drop, (expansion code).exponent⟩ ≤
          value ⟨rest code drop, (expansion code).exponent⟩ :=
        value_le_value_iff.mpr (by omega)
      rw [abs_of_nonneg (by linarith)]
      linarith
    · exact absurd hreads hnot
    · rw [abs_of_nonpos (by linarith)]
      linarith
  · have hreads := nearest_of_between hcode hd' (.inr ⟨hhigh.le, hle⟩)
    rw [abs_of_nonneg (a := d'.value - _) (by linarith)]
    rcases cases_of_cut? hcut with ⟨rfl, -⟩ | ⟨rfl, -, hhalf⟩
    · rw [abs_of_nonneg (by linarith)]
      linarith
    · have hnear : value ⟨rest code drop, (expansion code).exponent⟩ ≤
          value ⟨10 ^ drop - rest code drop, (expansion code).exponent⟩ :=
        value_le_value_iff.mpr (by have := hhalf hreads; omega)
      rw [abs_of_nonpos (by linarith)]
      linarith

theorem digits_pos_of_nearest (h : 0 < d.nearest) : 0 < d.digits := by
  refine Nat.pos_of_ne_zero fun hzero => ?_
  obtain ⟨digits, exponent⟩ := d
  simp only at hzero
  rw [hzero, nearest_zero] at h
  exact Nat.lt_irrefl 0 h

/-- A decimal of one digit below a power of ten is at most nine tenths of it. -/
theorem far_below_power {exponent : Int} (hpos : 0 < d.digits) (hdigits : d.digits < 10)
    (hlt : d.value < value ⟨1, exponent⟩) : 10 * d.value ≤ 9 * value ⟨1, exponent⟩ := by
  have hexponent : d.exponent < exponent := by
    by_contra hge
    exact absurd ((value_le_of_exponent_le 1 (Int.not_lt.mp hge)).trans
      (value_le_value_iff.mpr hpos)) (not_le.mpr hlt)
  calc 10 * d.value = value ⟨10 * d.digits, d.exponent⟩ := (value_mul 10 ..).symm
    _ ≤ value ⟨9 * 10 ^ 1, d.exponent⟩ := value_le_value_iff.mpr (by omega)
    _ = value ⟨9, d.exponent + 1⟩ := value_shift ..
    _ ≤ value ⟨9 * 1, exponent⟩ := value_le_of_exponent_le 9 hexponent
    _ = 9 * value ⟨1, exponent⟩ := value_mul 9 ..

/-- A power of ten that reads back is near to its double: there are ten steps below it at least,
but for the smallest doubles, which are looked at one by one. -/
theorem near_of_above_total (hpos : 0 < code) (hcode : code < infinity)
    (h : (above code (total code)).nearest = code) :
    19 * (above code (total code)).value ≤ 20 * Binary64.value code := by
  rcases Nat.lt_or_ge code 10 with hsmall | hlarge
  · have hall : ∀ c < 10, 0 < c → (above c (total c)).nearest = c →
        19 * 10 ^ total c ≤ 20 * (expansion c).digits := by
      decide +kernel
    have hpower : (above code (total code)).value =
        value ⟨10 ^ total code, (expansion code).exponent⟩ := by
      rw [above_total hpos hcode.le, ← value_shift, Nat.one_mul]
    rw [hpower, ← value_expansion]
    calc 19 * value ⟨10 ^ total code, (expansion code).exponent⟩
        = value ⟨19 * 10 ^ total code, (expansion code).exponent⟩ := (value_mul ..).symm
      _ ≤ value ⟨20 * (expansion code).digits, (expansion code).exponent⟩ :=
        value_le_value_iff.mpr (hall code hsmall hpos h)
      _ = 20 * value (expansion code) := value_mul ..
  · have hsignificand : 10 ≤ Binary64.significand code := by
      rw [Binary64.significand, Binary64.scale]
      omega
    have hsteps := Binary64.mul_step_le hsignificand
    rw [Nat.cast_ofNat] at hsteps
    have hnearest := isNearest_nearest (above code (total code))
    rw [h] at hnearest
    have hlow := value_lt_above code (total code)
    have hnext := Binary64.value_strictMono (Nat.lt_succ_self code)
    have hnear := hnearest.nearest (code + 1) hcode
    rw [abs_of_nonpos (by linarith), le_abs] at hnear
    rcases hnear with hnear | hnear <;> linarith

/-- **No decimal that reads back and is as short is nearer than the shortest one.** -/
theorem abs_sub_shortest_le (hpos : 0 < code) (hcode : code < infinity) (hd : d.nearest = code)
    (hlength : (Nat.toDigits 10 d.digits).length ≤
      (Nat.toDigits 10 (shortest code).digits).length) :
    |(shortest code).value - Binary64.value code| ≤ |d.value - Binary64.value code| := by
  obtain ⟨kept, -, hcut, hfirst⟩ := exists_cut?_shortest hpos hcode.le
  have hlt := digits_lt_of_first hpos hcode.le hcut hfirst
  have hdigits : d.digits < 10 ^ max kept 1 := by
    have hle := (Nat.length_toDigits_le_iff (by decide) (by omega)).mpr hlt
    exact (Nat.length_toDigits_le_iff (by decide) (by omega)).mp (hlength.trans hle)
  rcases Nat.eq_zero_or_pos kept with rfl | hkept
  · -- the power of ten above the double: a decimal of one digit is beyond it or far below it
    rw [Nat.sub_zero] at hcut
    rcases cases_of_cut? hcut with ⟨heq, habove, -⟩ | ⟨-, hbelow, -⟩
    · have hnear := near_of_above_total hpos hcode habove
      have hhigh := value_lt_above code (total code)
      rw [heq, abs_of_nonneg (a := (above code (total code)).value - _) (by linarith), le_abs]
      rcases le_or_gt (above code (total code)).value d.value with hle | hlt
      · left
        linarith
      · right
        rw [above_total hpos hcode.le] at hlt hnear ⊢
        have hfar := far_below_power (digits_pos_of_nearest (hd.symm ▸ hpos)) hdigits hlt
        linarith
    · have hzero : (below code (total code)).nearest = 0 := by
        rw [below, Nat.div_eq_of_lt (total_spec hpos hcode.le).2, nearest_zero]
      omega
  · have htotal := kept_le_total hpos hcode.le hfirst
    have hdrop : total code - (total code - kept) = kept := by omega
    rw [Nat.max_eq_left hkept, ← hdrop] at hdigits
    exact abs_sub_le_of_cut? hcode.le hcut hd
      (le_below_or_above_le hpos hcode.le (by omega) hdigits)

/-- Among the decimals that are rounded to a double, none has fewer digits than `d`, and none that
has as few of them is nearer to the double. -/
structure IsShortest (d : Decimal) (code : Nat) : Prop where
  isNearest : IsNearest d.value code
  length_le : ∀ d' : Decimal, IsNearest d'.value code →
    (Nat.toDigits 10 d.digits).length ≤ (Nat.toDigits 10 d'.digits).length
  abs_sub_le : ∀ d' : Decimal, IsNearest d'.value code →
    (Nat.toDigits 10 d'.digits).length ≤ (Nat.toDigits 10 d.digits).length →
    |d.value - Binary64.value code| ≤ |d'.value - Binary64.value code|

/-- **The shortest decimal is the shortest.** -/
theorem isShortest_shortest (hcode : code < infinity) : IsShortest (shortest code) code := by
  refine ⟨nearest_eq_iff.mp (nearest_shortest hcode.le), fun d' hd' => ?_,
    fun d' hd' hlength => ?_⟩
  · rcases Nat.eq_zero_or_pos code with rfl | hpos
    · exact Nat.length_toDigits_pos
    · exact length_shortest_le hpos hcode.le (nearest_eq_iff.mpr hd')
  · rcases Nat.eq_zero_or_pos code with rfl | hpos
    · have hzero : (shortest 0).value = Binary64.value 0 := by
        simp [shortest, value, Binary64.value_zero]
      rw [hzero, sub_self, abs_zero]
      exact abs_nonneg _
    · exact abs_sub_shortest_le hpos hcode (nearest_eq_iff.mpr hd') hlength

/-- **A power of ten does not come between a double and the shortest decimal**, if it is rounded
up to a double or is one. -/
theorem IsShortest.power_le_iff (h : IsShortest d code) (hcode : code ≤ infinity) (exponent : Int)
    (hpower : value ⟨1, exponent⟩ ≤ Binary64.value (Decimal.nearest ⟨1, exponent⟩)) :
    value ⟨1, exponent⟩ ≤ d.value ↔ value ⟨1, exponent⟩ ≤ Binary64.value code := by
  have hd : d.nearest = code := nearest_eq_iff.mpr h.isNearest
  constructor
  · intro hle
    by_contra hlt
    have hreads := nearest_of_between hcode hd (.inr ⟨(not_le.mp hlt).le, hle⟩)
    rw [hreads] at hpower
    exact hlt hpower
  · intro hle
    by_contra hlt
    have hreads := nearest_of_between hcode hd (.inl ⟨(not_le.mp hlt).le, hle⟩)
    have hone : (Nat.toDigits 10 1).length = 1 := rfl
    have hnear := h.abs_sub_le _ (nearest_eq_iff.mp hreads)
      (hone.le.trans Nat.length_toDigits_pos)
    rw [abs_of_nonpos (by linarith), abs_of_nonpos (by linarith)] at hnear
    linarith

end Reckon.Decimal
