import Reckon.CommandLine

/-!
# The program

Runs the command line on the arguments of the process, writes what it says and ends with
its exit code.
-/

def main (args : List String) : IO UInt32 := do
  let outcome := Reckon.CommandLine.run args
  (← IO.getStdout).putStr outcome.stdout
  (← IO.getStderr).putStr outcome.stderr
  return UInt32.ofNat outcome.exitCode
