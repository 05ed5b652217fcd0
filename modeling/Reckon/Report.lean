import Reckon.Assembly
import Reckon.Expr.Evaluation
import Reckon.Expr.Postfix
import Reckon.Token.Scan

/-!
# What is reported about an expression

A source text is taken apart, assembled into a tree and evaluated as far as possible.  The
tree is reported in postfix and in infix form, then its variables, then what is left of it
after the evaluation.

## Main definitions

* `Report` — the lines of a report, what was done for it, and how the run ended.
* `Report.Failure` — the two ways in which a run can fail.
* `Report.ofSource` — the report on a source text.
* `Report.logLines` — what was done, told as a log.
-/

namespace Reckon

/-- Why a run failed. -/
inductive Report.Failure where
  /-- The text is not an expression. -/
  | malformed (error : SyntaxError)
  /-- A division of two numbers by zero was met. -/
  | undefined (error : DivisionByZero)
  deriving DecidableEq, Repr

/-- The report on a source text. -/
structure Report where
  /-- The lines written, in order. -/
  lines : List String
  /-- What was done to assemble the tree. -/
  assembly : List Assembly.Record
  /-- What was done to evaluate it. -/
  evaluation : List Expr.Event
  /-- Why the run failed, if it did. -/
  failure : Option Report.Failure
  deriving DecidableEq, Repr

namespace Report

/-- The sentence that tells of a failure. -/
def Failure.message : Failure → String
  | malformed error => error.message
  | undefined error => error.message

/-- The lines that show a tree, before any of it is evaluated. -/
def treeLines (e : Expr) : List String :=
  ["Postfix: " ++ e.postfixText, "Infix: " ++ e.infixText]

/-- The lines that show the outcome of an evaluation: one for each place where a variable
stands, and the tree that is left. -/
def solvedLines (solved : Expr.Solution) : List String :=
  solved.unbound.map Expr.unboundNotice ++ ["Solved: " ++ solved.expr.infixText]

/-- The report on a tree and the record of its assembly. -/
def ofExpr (assembly : List Assembly.Record) (e : Expr) : Report :=
  let evaluation := e.evaluate.trace
  match e.solve with
  | .ok solved => ⟨treeLines e ++ solvedLines solved, assembly, evaluation, none⟩
  | .error error => ⟨treeLines e, assembly, evaluation, some (.undefined error)⟩

/-- The report on a source text.  A text that is not an expression gives no line. -/
def ofSource (source : String) : Report :=
  let assembled := Expr.assemble (Token.scan source)
  match assembled.result with
  | .ok e => ofExpr assembled.trace e
  | .error error => ⟨[], assembled.trace, [], some (.malformed error)⟩

/-- The log lines that a verbosity lets through, in the order in which things were done. -/
def logLines (r : Report) (verbosity : Nat) : List String :=
  Log.shown verbosity
    (r.assembly.map Assembly.Record.line ++ r.evaluation.map Expr.Event.line)

/-- A list of lines as it is written: a line feed behind each. -/
def writeLines (lines : List String) : String :=
  String.join (lines.map (· ++ "\n"))

/-- What is written about an expression. -/
def text (r : Report) : String := writeLines r.lines

end Report

end Reckon
