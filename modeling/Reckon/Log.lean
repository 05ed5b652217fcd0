/-!
# Log lines

What a run did is told in lines of three levels.  The verbosity asked for decides which of them
are shown; that, and the form in which a line is written, is the logger's part.

## Main definitions

* `Log.Level` — how detailed a line is.
* `Log.Line` — a line: its level and its text.
* `Log.shown` — the lines that a verbosity lets through, as they are written.
-/

namespace Reckon.Log

/-- How detailed a log line is. -/
inductive Level where
  /-- What a user may want to know. -/
  | info
  /-- The results of the stages. -/
  | debug
  /-- Every single step. -/
  | trace
  deriving DecidableEq, Repr

namespace Level

/-- The name written in front of a line. -/
def name : Level → String
  | info => "INFO"
  | debug => "DEBUG"
  | trace => "TRACE"

/-- The least verbosity that shows lines of a level.  Verbosity 1 shows warnings and
errors alone, which these are not. -/
def rank : Level → Nat
  | info => 2
  | debug => 3
  | trace => 4

end Level

/-- A log line. -/
structure Line where
  level : Level
  text : String
  deriving DecidableEq, Repr

/-- The lines that a verbosity lets through, in order, each behind the name of its level. -/
def shown (verbosity : Nat) (lines : List Line) : List String :=
  (lines.filter fun line => line.level.rank ≤ verbosity).map fun line =>
    line.level.name ++ " - " ++ line.text

end Reckon.Log
