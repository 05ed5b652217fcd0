import Reckon.Decimal.Layout
import Reckon.Decimal.Literal
import Reckon.Decimal.Shortest

/-!
# Numbers as operands

An operand is a number when its text is one of the forms below, and a variable otherwise.
The value of an evaluated operator is written in one of these forms too, so that it is a
number wherever it goes next.

## Main definitions

* `Numeral.read?` — the value of an operand that is a number.
* `Numeral.layout` — where plain notation ends.
* `Numeral.write` — the text of a value.
-/

namespace Reckon.Numeral

/-- The code of an operand without its sign: the word `Infinity`, the word `NaN`, or a
decimal literal. -/
def readCode? (cs : List Char) : Option Nat :=
  if cs = "Infinity".toList then some Binary64.infinity
  else if cs = "NaN".toList then some Binary64.nan
  else (Decimal.read? cs).map Decimal.nearest

/-- The double of a sign and a code.  What is not a number has no sign. -/
def ofCode (negative : Bool) (code : Nat) : Float :=
  Binary64.toFloat (negative && code ≤ Binary64.infinity) code

/-- The value of an operand, or `none` when it is a variable.  One minus sign may stand in
front; the operands of a source text never have one, but those written for values do. -/
def read? (text : String) : Option Float :=
  match text.toList with
  | '-' :: cs => (readCode? cs).map (ofCode true)
  | cs => (readCode? cs).map (ofCode false)

/-- Values of at least `10 ^ -4` and below `10 ^ 16` are written in full, and so is
zero. -/
def layout : Decimal.Layout := ⟨-4, 16⟩

/-- The text of the double of a code without its sign. -/
def writeCode (code : Nat) : List Char :=
  if code = Binary64.infinity then "Infinity".toList
  else (Decimal.shortest code).layOut layout

/-- The text of a value: the fewest digits that read back, with the sign of a zero kept. -/
def write (v : Float) : String :=
  let code := Binary64.code v
  if Binary64.infinity < code then "NaN"
  else String.ofList ((if Binary64.isNegative v then ['-'] else []) ++ writeCode code)

end Reckon.Numeral
