import SymbolicAlgebra.CommandLine.Run
/-!
# The program
-/
open SymbolicAlgebra

/-- Evaluates, simplifies or solves the text given on the command line. -/
def main (args : List String) : IO UInt32 := do
  match (CommandLine.run {} args).value with
  | .stopped status out =>
    IO.print out
    if status ≠ 0 then IO.eprint CommandLine.usage
    return status.toUInt32
  | .finished status out err =>
    IO.print out
    IO.eprint err
    return status.toUInt32
