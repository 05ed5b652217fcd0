import Reckon.Text.Blank
import Reckon.Text.Bytes

/-!
# The lines of a source text

A line ends behind a line feed or a carriage return, whichever comes first; each of the two
ends a line by itself.  Lines are counted from one.

## Main definitions

* `Source.splitLines` — the lines of a text, each with the character that ends it.
* `Source.Line.find?` — the line that holds a byte position.

## Main results

* `Source.flatten_splitLines` — the lines make up the text.
-/

namespace Reckon.Source

/-- Whether a character ends a line. -/
def isBreak (c : Char) : Bool := c == '\n' || c == '\r'

/-- The lines of a text, each with the character that ends it.  Only the last one may lack
that, and none is empty. -/
def splitLines : List Char → List (List Char)
  | [] => []
  | c :: cs =>
    if isBreak c then [c] :: splitLines cs
    else
      match splitLines cs with
      | [] => [[c]]
      | line :: lines => (c :: line) :: lines

/-- A line of a source text. -/
structure Line where
  /-- Its number, counted from one. -/
  number : Nat
  /-- The byte position of its first character. -/
  start : Nat
  /-- Its text without the blanks at its end. -/
  text : String
  deriving DecidableEq, Repr

namespace Line

/-- The line that holds a byte position, among lines of which the first has the given number
and start. -/
def findFrom? (position number start : Nat) : List (List Char) → Option Line
  | [] => none
  | line :: lines =>
    let stop := start + Text.byteLength line
    if position < stop then some ⟨number, start, String.ofList (Text.trimEnd line)⟩
    else findFrom? position (number + 1) stop lines

/-- The line that holds a byte position, or `none` for a position behind the text. -/
def find? (source : String) (position : Nat) : Option Line :=
  findFrom? position 1 0 (splitLines source.toList)

end Line

theorem flatten_splitLines (cs : List Char) : (splitLines cs).flatten = cs := by
  induction cs with
  | nil => rfl
  | cons c cs ih =>
    unfold splitLines
    split
    · simp [ih]
    · split
      · rename_i h
        simp [h] at ih
        simp [← ih]
      · rename_i h
        rw [h] at ih
        simp at ih
        simp [ih]

end Reckon.Source
