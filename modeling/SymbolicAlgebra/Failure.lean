import SymbolicAlgebra.Builtin
import SymbolicAlgebra.Expr.Canonical
import SymbolicAlgebra.Rewrite.Fold
import SymbolicAlgebra.SyntaxError
/-!
# How a request can fail

Codes are grouped by stage: the first digit is 1 for reading, 2 for evaluation and 3 for solving.
-/
namespace SymbolicAlgebra

variable {α : Type}

namespace RewriteError

/-- The code of folding an equation is that of evaluating one. -/
def code : RewriteError α → Nat
  | equality => EvalError.equality.code
  | notEquation _ => 3000
  | unsettled _ => 3001

def message [Numeral α] : RewriteError α → String
  | equality => EvalError.equality.message
  | notEquation tree => "Not an equation: " ++ tree.canonical
  | unsettled passes => "Rewriting did not converge after " ++ toString passes ++ " passes"

end RewriteError

inductive Failure (α : Type)
  /-- A text is not an expression. -/
  | reading (e : SyntaxError)
  /-- A text that was to be evaluated is not an expression. -/
  | unreadable (e : SyntaxError)
  | evaluation (e : EvalError)
  | rewriting (e : RewriteError α)
deriving Repr

namespace Failure

def code : Failure α → Nat
  | reading e => e.code
  | unreadable _ => 2001
  | evaluation e => e.code
  | rewriting e => e.code

def message [Numeral α] : Failure α → String
  | reading e => e.message
  | unreadable e => "Error while parsing: " ++ e.message
  | evaluation e => e.message
  | rewriting e => e.message

end Failure
end SymbolicAlgebra
