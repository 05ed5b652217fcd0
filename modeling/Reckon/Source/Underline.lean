import Reckon.Source.Line
import Reckon.Span

/-!
# Pointing at a place in the source

A place is shown as the line it is on, with its number in a gutter, and a second line with
carets under the place.  Both the indentation and the carets are measured in bytes.

## Main definitions

* `Source.underline source span` — the two lines, or `none` when the span starts behind the
  text.
-/

namespace Reckon.Source

/-- The line on which a span starts, and carets under the span.  An empty span gets one
caret. -/
def underline (source : String) (span : Span) : Option String :=
  (Line.find? source span.start).map fun line =>
    let number := toString line.number
    let blank (n : Nat) := String.ofList (List.replicate n ' ')
    let carets := String.ofList (List.replicate (max span.length 1) '^')
    number ++ "| " ++ line.text ++ "\n"
      ++ blank number.length ++ "| " ++ blank (span.start - line.start) ++ carets

end Reckon.Source
