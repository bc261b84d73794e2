import SymbolicAlgebra.Equation.Isolate
import SymbolicAlgebra.Evaluation
import SymbolicAlgebra.Expr.OfText
import SymbolicAlgebra.Expr.Typeset
import SymbolicAlgebra.Failure
/-!
# Working with texts

The operations a user asks for: reading, evaluating, simplifying and solving, on a text or on a tree
that was read before. Each notes what it does.

* `Session`: the choices that stay the same from one request to the next.
* `Session.answer`: a request answered in text, failures included.
-/
namespace SymbolicAlgebra

/-- The choices that stay the same from one request to the next. -/
structure Session where
  /-- The variable that simplification moves outward when no other is named. -/
  defaultTarget : String := "X"
  /-- The greatest count of passes or of steps. -/
  ceiling : Nat := 1000
  /-- The decimal places kept of a value. -/
  places : Int := 15
deriving DecidableEq, Repr

/-- Work on a request: it notes events and may fail. -/
abbrev Work (α : Type) (β : Type) := Attempt (Failure α) (Event α) β

variable {α : Type}

/-- Rewriting as work on a request. -/
def Rewriting.work {β : Type} (x : Rewriting α β) : Work α β := Attempt.mapError .rewriting x

section Reading

variable [Scalar α] [Numeral α]

/-- Reads an expression or an equation. -/
def readText (text : String) : Work α (Expr α) := do
  let tree ← .ofExcept ((Expr.ofText text).mapError .reading)
  .note (.parsed text tree)
  return tree

/-- Reads an equation. -/
def readEquation (text : String) : Work α (Equation α) := do
  let equation ← .ofExcept ((Equation.ofText text).mapError .reading)
  .note (.parsedEquation text equation.toExpr)
  return equation

end Reading

namespace Session

section Rewriting

variable [Scalar α]

/-- Simplifies a tree. -/
def simplify (s : Session) (tree : Expr α) (target : Option String) : Work α (Expr α) :=
  (tree.simplify (target.getD s.defaultTarget) s.ceiling).work

/-- Isolates a variable in a tree, which must be an equation. -/
def solve (s : Session) (tree : Expr α) (target : String) : Work α (Expr α) :=
  (tree.isolate target s.ceiling).work

variable [Numeral α]

/-- Reads and simplifies a text. -/
def simplifyText (s : Session) (text : String) (target : Option String) : Work α (Expr α) := do
  s.simplify (← readText text) target

/-- Reads an equation and isolates a variable in it. -/
def solveText (s : Session) (text target : String) : Work α (Expr α) := do
  s.solve (← readEquation text).toExpr target

end Rewriting

section Evaluation

variable [Elementary α] [Numeral α]

/-- Reads and evaluates a text. The value is rounded. -/
def evaluate (s : Session) (text : String) : Work α α := do
  let tree ← (readText text).mapError fun
    | .reading e => .unreadable e
    | other => other
  let value ← .ofExcept (tree.value.mapError .evaluation)
  let rounded := Numeral.roundPlaces s.places value
  .note (.evaluated text rounded)
  return rounded

/-- An answer to a request: a number, or a text that is a result or says what failed. -/
inductive Answer (α : Type)
  | number (value : α)
  | text (text : String)
deriving Repr

/-- The work that a request asks for. -/
def work (s : Session) : Request → Work α (Answer α)
  | .evaluate text => return .number (← s.evaluate text)
  | .optimize text => return .text (← s.simplifyText text none).typeset
  | .isolate text target => return .text (← s.solveText text target).typeset

/-- Answers a request. A failure is answered by its message and noted as a refusal. -/
def answer (s : Session) (request : Request) : Traced (Event α) (Answer α) := do
  match ← (s.work request).run with
  | .ok x => return x
  | .error e =>
    Traced.note (.refused request e.message)
    return .text e.message

end Evaluation

end Session
end SymbolicAlgebra
