import Reckon.Decimal.Basic

/-!
# Decimal literals

A literal is a row of digits with at most one point among or beside them, and may end in an
exponent: the letter `e` of either case, a sign that may be left out, and digits.  There is
at least one digit before the exponent.  All digits are ASCII.

## Main definitions

* `Decimal.readDigits?` — a row of digits and nothing else.
* `Decimal.readExponent?` — the exponent, or the end of the text.
* `Decimal.read?` — a whole literal.
-/

namespace Reckon.Decimal

/-- The number that a row of digits stands for.  The row has at least one digit and holds
nothing else. -/
def readDigits? (cs : List Char) : Option Nat :=
  if cs ≠ [] ∧ cs.all Char.isDigit then some (Nat.ofDigitChars 10 cs 0) else none

/-- The exponent at the end of a literal, which may be left out. -/
def readExponent? : List Char → Option Int
  | [] => some 0
  | e :: cs =>
    if e = 'e' ∨ e = 'E' then
      match cs with
      | '-' :: cs => (readDigits? cs).map fun n => -(n : Int)
      | '+' :: cs => (readDigits? cs).map Int.ofNat
      | cs => (readDigits? cs).map Int.ofNat
    else none

/-- The digits behind the point and what follows them.  Without a point there are none. -/
def splitFraction : List Char → List Char × List Char
  | '.' :: cs => (cs.takeWhile Char.isDigit, cs.dropWhile Char.isDigit)
  | cs => ([], cs)

/-- The decimal that a literal stands for, or `none` for any other text. -/
def read? (cs : List Char) : Option Decimal :=
  let whole := cs.takeWhile Char.isDigit
  let (fraction, rest) := splitFraction (cs.dropWhile Char.isDigit)
  match readDigits? (whole ++ fraction) with
  | none => none
  | some digits =>
    (readExponent? rest).map fun exponent => ⟨digits, exponent - fraction.length⟩

end Reckon.Decimal
