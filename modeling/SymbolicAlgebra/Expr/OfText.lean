import SymbolicAlgebra.Equation.Basic
import SymbolicAlgebra.Reading
import SymbolicAlgebra.Token.Scan
/-!
# Expressions and equations from text

* `Equation.ofText`: a text with exactly one equals sign.
* `Expr.ofText`: an expression, or an equation if there is an equals sign at all.
-/
namespace SymbolicAlgebra

variable {α : Type} [Scalar α] [Numeral α]

/-- The equals sign as a token. -/
def Token.equalsSign : Token := .operator .equals

namespace Equation

/-- One side of an equation. An empty side is reported at the equals sign. -/
def side (ts : List Token) : Except SyntaxError (Expr α) :=
  if ts.isEmpty then .error (.invalidToken Token.equalsSign.lexeme) else Expr.ofTokens ts

/-- The equation that a list of tokens spells. The left side is read first. -/
def ofTokens (ts : List Token) : Except SyntaxError (Equation α) :=
  match ts.count Token.equalsSign with
  | 0 => .error .missingEquals
  | 1 => do
    let lhs ← side (ts.takeWhile (· != Token.equalsSign))
    let rhs ← side ((ts.dropWhile (· != Token.equalsSign)).drop 1)
    return ⟨lhs, rhs⟩
  | n => .error (.repeatedEquals n)

def ofText (text : String) : Except SyntaxError (Equation α) := Token.ofText text >>= ofTokens

end Equation

/-- The expression that a text spells. An equals sign makes it an equation. -/
def Expr.ofText (text : String) : Except SyntaxError (Expr α) := do
  let ts ← Token.ofText text
  if ts.contains Token.equalsSign then return (← Equation.ofTokens ts).toExpr
  else Expr.ofTokens ts

end SymbolicAlgebra
