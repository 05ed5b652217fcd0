import Reckon.Options
import Reckon.Report
import Reckon.Source.Underline

/-!
# The command line program

The program reports on the expression that it is given.  The report goes to the standard
output; the log and what is wrong with the expression go to the standard error.

## Main definitions

* `CommandLine.Outcome` — what a run writes and the exit code it ends with.
* `CommandLine.run` — the run on a list of arguments.
-/

namespace Reckon.CommandLine

/-- What a run writes, and its exit code. -/
structure Outcome where
  exitCode : Nat
  stdout : String
  stderr : String
  deriving DecidableEq, Repr

/-- How the program is called.  The layout of this text and of the next is that of the argument
parser; the descriptions are those of the options. -/
def usage : String := "Usage: shunt [OPTIONS] <EXPRESSION>"

/-- The answer to a request for help. -/
def help : String :=
  Report.writeLines
    ["Builds, prints and partially evaluates an arithmetic expression", "", usage, "",
     "Arguments:",
     "  <EXPRESSION>  The expression, for example \"x + 2 * 3\"", "",
     "Options:",
     "  -v, --verbose...  Log more detail; repeat for debug (-vv) and trace (-vvv) output",
     "  -h, --help        Print help"]

/-- What is wrong with the arguments, in words. -/
def usageText : Options.UsageError → String
  | .missingExpression => "an expression is required"
  | .unexpectedArgument => "unexpected argument"
  | .unexpectedValue => "unexpected value for a flag"
  | .helpRequested => "help was requested"

/-- The lines that tell of a failure: where it is, if it is somewhere in the source, and
what it is. -/
def failureLines (source : String) (failure : Report.Failure) : List String :=
  let place : Option String :=
    match failure with
    | .malformed error => Source.underline source error.span
    | .undefined _ => none
  place.toList ++ ["Error: " ++ failure.message]

/-- The run on options that were read. -/
def report (options : Options) : Outcome :=
  let r := Report.ofSource options.expression
  let log := r.logLines options.verbosity
  match r.failure with
  | none => ⟨0, r.text, Report.writeLines log⟩
  | some failure =>
    ⟨1, r.text, Report.writeLines (log ++ failureLines options.expression failure)⟩

/-- The run on the arguments of the program, its own name not among them. -/
def run (args : List String) : Outcome :=
  match Options.read args with
  | .ok options => report options
  | .error .helpRequested => ⟨0, help, ""⟩
  | .error error => ⟨2, "", Report.writeLines ["error: " ++ usageText error, "", usage]⟩

end Reckon.CommandLine
