import SymbolicAlgebra.Expr.Basic
/-!
# The canonical form of an expression

Every operation is in parentheses, and a negation puts its operand into parentheses, so the text
shows the shape of the tree.
-/
namespace SymbolicAlgebra

variable {α : Type} [Numeral α]

def Monomial.canonical (m : Monomial α) : String :=
  Numeral.text m.coefficient ++ m.var ++ "^(" ++ Numeral.text m.exponent ++ ")"

namespace Expr

mutual

/-- The canonical form of a tree. -/
def canonical : Expr α → String
  | .number x => Numeral.text x
  | .negate e => "-(" ++ canonical e ++ ")"
  | .binary op l r => "(" ++ canonical l ++ op.symbol ++ canonical r ++ ")"
  | .call f args => f ++ "(" ++ ", ".intercalate (canonicalAll args) ++ ")"
  | .monomial m => m.canonical
  | .constant name _ => name

/-- The canonical forms of a list of trees. -/
def canonicalAll : List (Expr α) → List String
  | [] => []
  | e :: es => canonical e :: canonicalAll es

end

theorem canonicalAll_eq_map (es : List (Expr α)) : canonicalAll es = es.map canonical := by
  induction es with
  | nil => rfl
  | cons e es ih => simp [canonicalAll, ih]

end Expr
end SymbolicAlgebra
