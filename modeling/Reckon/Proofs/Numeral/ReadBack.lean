import Reckon.Numeral
import Reckon.Proofs.Numeral.Bits
import Reckon.Proofs.Numeral.Nearest

/-!
# Written values read back

What is written for a value is one of the forms in which numbers are read, and reading it
gives the value again: all digits come back, the point and the exponent make up for each other,
and the decimal that was chosen is nearest to the value it was chosen for.

## Main definitions

* `Decimal.IsDigits cs` — a row of digits and nothing else.

## Main results

* `Decimal.read?_digits`, `Decimal.read?_point` — what literals with and without a point stand
  for.
* `Decimal.exists_read?_layOut` — a decimal that was laid out reads back as one of equal value.
* `Numeral.read?_write` — **every value reads back**, zeros with their sign included.
-/

namespace Reckon

-- Powers are those of the core library, also where another library brings its own.
attribute [local instance (high)] instPowNat

namespace Decimal

/-! ### Rows of digits -/

/-- A row of digits and nothing else. -/
def IsDigits (cs : List Char) : Prop := ∀ c ∈ cs, c.isDigit

theorem isDigits_toDigits (n : Nat) : IsDigits (Nat.toDigits 10 n) :=
  fun _ hc => Nat.isDigit_of_mem_toDigits (by decide) (by decide) hc

theorem isDigits_replicate_zero (n : Nat) : IsDigits (List.replicate n '0') := by
  intro c hc
  rw [List.eq_of_mem_replicate hc]
  rfl

theorem IsDigits.append {as bs : List Char} (ha : IsDigits as) (hb : IsDigits bs) :
    IsDigits (as ++ bs) := fun c hc => (List.mem_append.mp hc).elim (ha c) (hb c)

theorem IsDigits.take {cs : List Char} (h : IsDigits cs) (n : Nat) : IsDigits (cs.take n) :=
  fun c hc => h c (List.mem_of_mem_take hc)

theorem IsDigits.drop {cs : List Char} (h : IsDigits cs) (n : Nat) : IsDigits (cs.drop n) :=
  fun c hc => h c (List.mem_of_mem_drop hc)

theorem IsDigits.readDigits? {cs : List Char} (h : IsDigits cs) (hne : cs ≠ []) :
    readDigits? cs = some (Nat.ofDigitChars 10 cs 0) := by
  rw [Decimal.readDigits?, if_pos ⟨hne, List.all_eq_true.mpr h⟩]

/-- What follows a row of digits goes on with something else. -/
def Ends (rest : List Char) : Prop := ∀ c ∈ rest.head?, ¬c.isDigit

theorem IsDigits.takeWhile_append {cs rest : List Char} (h : IsDigits cs) (hrest : Ends rest) :
    (cs ++ rest).takeWhile Char.isDigit = cs := by
  rw [List.takeWhile_append_of_pos h]
  cases rest with
  | nil => simp
  | cons c rest => simp [hrest c rfl]

theorem IsDigits.dropWhile_append {cs rest : List Char} (h : IsDigits cs) (hrest : Ends rest) :
    (cs ++ rest).dropWhile Char.isDigit = rest := by
  rw [List.dropWhile_append_of_pos h]
  cases rest with
  | nil => rfl
  | cons c rest => simp [hrest c rfl]

/-! ### Literals -/

/-- What a literal without a point stands for. -/
theorem read?_digits {whole rest : List Char} (hwhole : IsDigits whole) (hne : whole ≠ [])
    (hrest : Ends rest) (hpoint : rest.head? ≠ some '.') :
    read? (whole ++ rest) =
      (readExponent? rest).map fun x => ⟨Nat.ofDigitChars 10 whole 0, x⟩ := by
  have hsplit : splitFraction rest = ([], rest) := by
    unfold splitFraction
    split
    · exact absurd rfl hpoint
    · rfl
  simp only [read?, hwhole.takeWhile_append hrest, hwhole.dropWhile_append hrest, hsplit,
    List.append_nil, hwhole.readDigits? hne, List.length_nil, Int.natCast_zero, Int.sub_zero]

/-- What a literal with a point stands for. -/
theorem read?_point {whole fraction rest : List Char} (hwhole : IsDigits whole)
    (hfraction : IsDigits fraction) (hne : whole ++ fraction ≠ []) (hrest : Ends rest) :
    read? (whole ++ '.' :: (fraction ++ rest)) = (readExponent? rest).map fun x =>
      ⟨Nat.ofDigitChars 10 (whole ++ fraction) 0, x - fraction.length⟩ := by
  have hpoint : Ends ('.' :: (fraction ++ rest)) := by
    rintro c ⟨⟩
    decide
  have hsplit : splitFraction ('.' :: (fraction ++ rest)) = (fraction, rest) := by
    rw [splitFraction, hfraction.takeWhile_append hrest, hfraction.dropWhile_append hrest]
  have hdigits := (hwhole.append hfraction).readDigits? hne
  simp only [read?, hwhole.takeWhile_append hpoint, hwhole.dropWhile_append hpoint, hsplit,
    hdigits]

/-- Digits behind the letter are an exponent: the first of them is no sign. -/
theorem readExponent?_digits {letter : Char} (hletter : letter = 'e' ∨ letter = 'E')
    {digits : List Char} (h : IsDigits digits) :
    readExponent? (letter :: digits) = (readDigits? digits).map Int.ofNat := by
  unfold readExponent?
  dsimp only
  rw [if_pos hletter]
  split
  · exact absurd (h '-' List.mem_cons_self) (by decide)
  · exact absurd (h '+' List.mem_cons_self) (by decide)
  · rfl

theorem readExponent?_toDigits (n : Int) :
    readExponent? ('e' :: (if n < 0 then ['-'] else []) ++ Nat.toDigits 10 n.natAbs) =
      some n := by
  have hread : readDigits? (Nat.toDigits 10 n.natAbs) = some n.natAbs := by
    rw [(isDigits_toDigits _).readDigits? Nat.toDigits_ne_nil, Nat.ofDigitChars_ten_toDigits]
  by_cases hn : n < 0
  · rw [if_pos hn]
    simp only [List.cons_append, List.nil_append, readExponent?, true_or, if_true, hread]
    exact congrArg some (show -(n.natAbs : Int) = n by omega)
  · rw [if_neg hn, List.singleton_append,
      readExponent?_digits (.inl rfl) (isDigits_toDigits _), hread]
    exact congrArg some (show (n.natAbs : Int) = n by omega)

/-! ### Decimals that were laid out -/

section LayOut

variable {ds : List Char} (hds : IsDigits ds) (hne : ds ≠ [])

include hds hne in
/-- In full, the digits come back with the exponent that the point stands for; a whole number
gets zeros up to the point and one behind it. -/
theorem read?_positional (exponent : Int) :
    read? (positional ds (ds.length + exponent)) =
      some (if 0 ≤ exponent then
        ⟨Nat.ofDigitChars 10 ds 0 * 10 ^ (exponent.toNat + 1), -1⟩
      else ⟨Nat.ofDigitChars 10 ds 0, exponent⟩) := by
  have hlen : 1 ≤ ds.length := List.length_pos_iff.mpr hne
  have hend : Ends [] := by simp [Ends]
  unfold positional
  split
  · next hsmall =>
    -- all digits stand behind the point
    have hzeros := (isDigits_replicate_zero (-(ds.length + exponent)).toNat).append hds
    have hread := read?_point (isDigits_replicate_zero 1) hzeros (by simp) hend
    have hvalue : Nat.ofDigitChars 10 (List.replicate 1 '0' ++
        (List.replicate (-(ds.length + exponent)).toNat '0' ++ ds)) 0 =
          Nat.ofDigitChars 10 ds 0 := by
      simp only [Nat.ofDigitChars_append, Nat.ofDigitChars_replicate_zero, Nat.mul_zero]
    rw [hvalue, List.append_nil] at hread
    rw [if_neg (by omega)]
    refine hread.trans (congrArg some ?_)
    simp only [List.length_append, List.length_replicate, mk.injEq, true_and]
    omega
  · split
    · next hwhole =>
      have hzeros := hds.append
        (isDigits_replicate_zero ((ds.length + exponent).toNat - ds.length))
      have hread := read?_point hzeros (isDigits_replicate_zero 1) (by simp [hne]) hend
      have hcount : (ds.length + exponent).toNat - ds.length = exponent.toNat := by omega
      rw [List.append_nil] at hread
      rw [if_pos (by omega)]
      refine hread.trans (congrArg some ?_)
      simp only [Nat.ofDigitChars_append, Nat.ofDigitChars_replicate_zero, hcount,
        List.length_replicate, mk.injEq]
      refine ⟨?_, by omega⟩
      simp only [Nat.pow_succ, Nat.pow_zero, Nat.one_mul]
      ac_rfl
    · next hpoint =>
      have hread := read?_point (hds.take (ds.length + exponent).toNat)
        (hds.drop (ds.length + exponent).toNat) (by rwa [List.take_append_drop]) hend
      rw [List.append_nil, List.take_append_drop] at hread
      rw [if_neg (by omega)]
      refine hread.trans (congrArg some ?_)
      simp only [List.length_drop, mk.injEq, true_and]
      omega

include hds hne in
/-- With an exponent of its own, the digits come back with the exponent that is left. -/
theorem read?_scientific (exponent : Int) :
    read? (scientific ds (ds.length + exponent - 1)) =
      some ⟨Nat.ofDigitChars 10 ds 0, exponent⟩ := by
  have hlen : 1 ≤ ds.length := List.length_pos_iff.mpr hne
  have hfirst : ds.take 1 ≠ [] := by simp [hne]
  have hexponent := readExponent?_toDigits (ds.length + exponent - 1)
  unfold scientific
  extract_lets fraction sign
  rw [List.append_assoc (_ ++ fraction)]
  have hends : Ends ('e' :: sign ++ Nat.toDigits 10 (ds.length + exponent - 1).natAbs) := by
    rintro c ⟨⟩
    decide
  by_cases hone : ds.length ≤ 1
  · -- a single digit, which stands before the point that is left out
    have hread := read?_digits (hds.take 1) hfirst hends (by simp)
    rw [hexponent, Option.map_some, List.take_of_length_le hone] at hread
    have hfraction : fraction = [] := if_pos hone
    rw [hfraction, List.append_nil, List.take_of_length_le hone, hread]
    simp only [Option.some.injEq, mk.injEq, true_and]
    omega
  · have hread := read?_point (hds.take 1) (hds.drop 1) (by rwa [List.take_append_drop]) hends
    rw [hexponent, Option.map_some, List.take_append_drop, List.length_drop] at hread
    have hfraction : fraction = '.' :: ds.drop 1 := if_neg hone
    rw [hfraction, List.append_assoc, List.cons_append, hread]
    simp only [Option.some.injEq, mk.injEq, true_and]
    omega

end LayOut

/-- **A decimal that was laid out reads back** as a decimal to which the same double is
nearest. -/
theorem exists_read?_layOut (layout : Layout) (hhigh : layout.high ≤ 400) (d : Decimal) :
    ∃ d', read? (d.layOut layout) = some d' ∧ d'.nearest = d.nearest := by
  have hds := isDigits_toDigits d.digits
  have hne : Nat.toDigits 10 d.digits ≠ [] := Nat.toDigits_ne_nil
  have hlen := List.length_pos_iff.mpr hne
  have hdigits : Nat.ofDigitChars 10 (Nat.toDigits 10 d.digits) 0 = d.digits :=
    Nat.ofDigitChars_ten_toDigits
  unfold layOut
  extract_lets ds leading
  split
  · next hfull =>
    have hpoint : leading + 1 = ds.length + d.exponent := by omega
    rw [hpoint, read?_positional hds hne]
    refine ⟨_, rfl, ?_⟩
    rw [hdigits]
    split
    · next hwhole =>
      rw [nearest_shift _ _ (by omega), Int.toNat_of_nonneg hwhole]
    · rfl
  · refine ⟨_, read?_scientific hds hne d.exponent, ?_⟩
    rw [hdigits]

end Decimal

namespace Numeral

open Binary64 (infinity)

/-- The sign in front is not part of what names a code. -/
theorem readCode?_minus (cs : List Char) : readCode? ('-' :: cs) = none := by
  rw [readCode?, if_neg (by simp), if_neg (by simp)]
  rfl

theorem readCode?_writeCode {code : Nat} (hcode : code ≤ infinity) :
    readCode? (writeCode code) = some code := by
  unfold writeCode
  split
  · next hinfinity => rw [readCode?, if_pos rfl, hinfinity]
  · obtain ⟨d, hread, hnearest⟩ :=
      Decimal.exists_read?_layOut layout (by decide) (Decimal.shortest code)
    -- the words are no literals, so none of them was laid out
    have hword : ∀ word, Decimal.read? word = none →
        (Decimal.shortest code).layOut layout ≠ word := by
      intro word hnone heq
      rw [heq, hnone] at hread
      cases hread
    rw [readCode?, if_neg (hword _ rfl), if_neg (hword _ rfl), hread, Option.map_some, hnearest,
      Decimal.nearest_shortest hcode]

/-- **Every value reads back.** -/
theorem read?_write (v : Float) : read? (write v) = some v := by
  unfold write
  extract_lets code
  split
  · next hnan =>
    rw [Binary64.eq_nan_of_infinity_lt_code hnan]
    rfl
  · next hcode =>
    have hcode : code ≤ infinity := Nat.not_lt.mp hcode
    have hread := readCode?_writeCode hcode
    have hof : ∀ negative, ofCode negative code = Binary64.toFloat negative code := by
      intro negative
      rw [ofCode, decide_eq_true hcode, Bool.and_true]
    have hvalue := Binary64.toFloat_isNegative_code v
    cases hsign : Binary64.isNegative v with
    | true =>
      rw [hsign] at hvalue
      simp only [read?, String.toList_ofList, if_true, List.cons_append, List.nil_append, hread,
        Option.map_some, hof]
      exact congrArg some hvalue
    | false =>
      rw [hsign] at hvalue
      simp only [read?, String.toList_ofList, Bool.false_eq_true, if_false, List.nil_append]
      split
      · -- what is written without a sign does not start with one
        next cs hcs =>
        rw [hcs, readCode?_minus] at hread
        cases hread
      · rw [hread, Option.map_some, hof]
        exact congrArg some hvalue

end Numeral

end Reckon
