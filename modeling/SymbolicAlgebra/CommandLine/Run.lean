import SymbolicAlgebra.Binary64.Instances
import SymbolicAlgebra.CommandLine.Arguments
import SymbolicAlgebra.Graph
import SymbolicAlgebra.Session
/-!
# Running the command line

`run` turns arguments into what is written and the exit status. Numbers are doubles.
-/
namespace SymbolicAlgebra.CommandLine

/-- The version that is reported. -/
def version : String := "0.1.0"

/-- How the program is called. -/
def usage : String :=
  "usage: symbolic-algebra [-h] [--version] [-v] command ...\n\n"
    ++ "  eval TEXT\n"
    ++ "  simplify [--target NAME] [--canonical] [--tree] TEXT\n"
    ++ "  solve --for NAME [--canonical] [--tree] TEXT\n"

/-- How a run ended. -/
inductive Outcome
  /-- The arguments ask for no work. -/
  | stopped (status : Nat) (out : String)
  /-- Work was done. It is logged and its errors are told in `err`. -/
  | finished (status : Nat) (out err : String)
deriving DecidableEq, Repr

/-- A text as one line, or a few. -/
def line (text : String) : String := text ++ "\n"

/-- A tree in the form asked for. -/
def Style.write {α : Type} [Scalar α] [Numeral α] : Style → Expr α → String
  | typeset, e => e.typeset
  | canonical, e => e.canonical
  | tree, e => e.dump

/-- The text that a command prints. -/
def Command.work (s : Session) : Command → Work Float String
  | eval text => return Numeral.answer (← s.evaluate text : Float)
  | simplify text target style => return style.write (← s.simplifyText text (some target))
  | solve text target style => return style.write (← s.solveText text target)

/-- The end of a run that had no work to do. -/
def Stop.outcome : Stop → Outcome
  | help => .stopped 0 usage
  | version => .stopped 0 (line CommandLine.version)
  | badUsage => .stopped 2 ""

/-- Does what an invocation asks for. A failure is told after what was logged before it. -/
def Invocation.run (s : Session) (i : Invocation) : Traced (Event Float) Outcome := do
  let done := (i.command.work s).run
  let log := if i.verbose then String.join (done.events.map fun e => line e.logLine) else ""
  match ← done with
  | .ok text => return .finished 0 (line text) log
  | .error e => return .finished 1 "" (log ++ line e.message)

/-- Runs the program. What the run notes is kept also where it is not logged. -/
def run (s : Session) (args : List String) : Traced (Event Float) Outcome :=
  match Invocation.ofArguments s.defaultTarget args with
  | .ok i => i.run s
  | .error stop => return stop.outcome

end SymbolicAlgebra.CommandLine
