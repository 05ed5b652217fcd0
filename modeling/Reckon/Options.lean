/-!
# Command line options

The arguments are one expression and any number of flags, in any order.  A flag is a cluster
of letters behind one dash, such as `-vv`, or a word behind two.  A lone dash is not a flag,
and behind a lone `--` nothing is.  The program leaves this to an argument parser; what is
written here are the conventions of that parser for the flags that the program has.

## Main definitions

* `Options` — the expression and the verbosity asked for.
* `Options.UsageError` — what can be wrong with the arguments.
* `Options.read` — reads the arguments; the first one that is wrong decides the error.
-/

namespace Reckon

/-- What was asked for on the command line. -/
structure Options where
  expression : String
  /-- How often more detail was asked for, at most 255. -/
  verbose : Nat
  deriving DecidableEq, Repr

namespace Options

/-- Why the arguments are not run. -/
inductive UsageError where
  /-- There is no expression. -/
  | missingExpression
  /-- An argument is neither a known flag nor the one expression. -/
  | unexpectedArgument
  /-- A flag that takes no value was given one. -/
  | unexpectedValue
  /-- Help was asked for instead. -/
  | helpRequested
  deriving DecidableEq, Repr

/-- The verbosity of the log: warnings by default, and one level more for each time that
more detail was asked for. -/
def verbosity (o : Options) : Nat := 1 + o.verbose

/-- The arguments read so far. -/
structure Reading where
  expression : Option String
  verbose : Nat
  /-- Whether a lone `--` was read. -/
  flagsEnded : Bool
  deriving DecidableEq, Repr

namespace Reading

/-- No argument read. -/
def start : Reading := ⟨none, 0, false⟩

/-- Counts one more request for detail. -/
def moreVerbose (r : Reading) : Reading := { r with verbose := min (r.verbose + 1) 255 }

/-- Reads an argument that is not a flag.  There is room for one. -/
def takeExpression (r : Reading) (arg : String) : Except UsageError Reading :=
  match r.expression with
  | none => .ok { r with expression := some arg }
  | some _ => .error .unexpectedArgument

/-- Reads the letters of a cluster of flags. -/
def takeLetter (r : Reading) (c : Char) : Except UsageError Reading :=
  if c = 'v' then .ok r.moreVerbose
  else if c = 'h' then .error .helpRequested
  else .error .unexpectedArgument

/-- Reads a flag that is written as a word.  A value may be attached to the word with an
equals sign, but no flag takes one. -/
def takeWord (r : Reading) (word : List Char) : Except UsageError Reading :=
  let name := word.takeWhile (· != '=')
  if name ≠ "verbose".toList ∧ name ≠ "help".toList then .error .unexpectedArgument
  else if name ≠ word then .error .unexpectedValue
  else if name = "help".toList then .error .helpRequested
  else .ok r.moreVerbose

/-- Reads one argument. -/
def take (r : Reading) (arg : String) : Except UsageError Reading :=
  if r.flagsEnded then r.takeExpression arg
  else
    match arg.toList with
    | ['-', '-'] => .ok { r with flagsEnded := true }
    | '-' :: '-' :: word => r.takeWord word
    | ['-'] => r.takeExpression arg
    | '-' :: letters => letters.foldlM takeLetter r
    | _ => r.takeExpression arg

end Reading

/-- Reads the arguments of the program, its own name not among them. -/
def read (args : List String) : Except UsageError Options := do
  let reading ← args.foldlM Reading.take Reading.start
  match reading.expression with
  | some expression => .ok ⟨expression, reading.verbose⟩
  | none => .error .missingExpression

end Options

end Reckon
