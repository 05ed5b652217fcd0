import Reckon.Decimal.Basic

/-!
# The shortest decimal that names a double

Many decimals are nearest to the same double.  The one written is the shortest of them, and
among the shortest the one nearest to the double; of two equally near ones it is the upper.

Every double has a finite decimal expansion, so the search is a search among its cuts.
Whatever number of digits is kept, the double lies between the kept digits and their
successor, and these two are the only candidates of that length.

## Main definitions

* `Decimal.expansion code` — the exact value of a finite double.
* `Decimal.digitCount` — the number of digits of a number.
* `Decimal.cut? code drop` — the better candidate with `drop` digits left out, if one of the
  two reads back.
* `Decimal.shortest code` — the decimal that is written.

## Main results

* `Decimal.nearest_of_cut?` — a candidate that was chosen reads back.
-/

namespace Reckon.Decimal

-- Powers are those of the core library, also where another library brings its own.
attribute [local instance (high)] instPowNat

/-- The exact value of a finite double: a unit `2 ^ -1074` is `5 ^ 1074 · 10 ^ -1074`. -/
def expansion (code : Nat) : Decimal := ⟨Binary64.units code * 5 ^ (1074 : Nat), -1074⟩

/-- The number of digits of a number, found from its binary logarithm `b`: the decimal
logarithm is `0.30102 · b` rounded down, or one more, and a comparison tells which.  The
estimate is near enough for numbers below `2 ^ 60000`; expansions are below `2 ^ 5000`. -/
def digitCount (n : Nat) : Nat :=
  let low := n.log2 * 30102 / 100000
  if n < 10 ^ (low + 1) then low + 1 else low + 2

/-- The expansion of a double with its last `drop` digits left out, or the successor of
that, whichever is nearer among those that read back; of two equally near ones the
successor. -/
def cut? (code drop : Nat) : Option Decimal :=
  let exact := expansion code
  let step := 10 ^ drop
  let lower : Decimal := ⟨exact.digits / step, exact.exponent + drop⟩
  let upper : Decimal := ⟨exact.digits / step + 1, exact.exponent + drop⟩
  if upper.nearest = code ∧
      (step ≤ 2 * (exact.digits % step) ∨ lower.nearest ≠ code) then some upper
  else if lower.nearest = code then some lower
  else none

/-- The shortest decimal that names a finite double.  Seventeen digits are always enough;
the search falls back on the whole expansion, which reads back whatever its length.

The search starts at no digit at all, where the successor is a power of ten.  A candidate
that ends in a zero is met earlier with that zero left out, so none is ever chosen. -/
def shortest (code : Nat) : Decimal :=
  if code = 0 then ⟨0, 0⟩
  else
    let exact := expansion code
    let total := digitCount exact.digits
    let cut := (List.range 18).findSome? fun kept => cut? code (total - kept)
    cut.getD exact

theorem nearest_of_cut? {code drop : Nat} {d : Decimal} (h : cut? code drop = some d) :
    d.nearest = code := by
  simp only [cut?] at h
  split at h
  · rename_i upper
    cases h
    exact upper.1
  · split at h
    · rename_i lower
      cases h
      exact lower
    · cases h

end Reckon.Decimal
