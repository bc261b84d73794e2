import SymbolicAlgebra.Expr.Basic
/-!
# The typeset form of an expression

The form for display, in the commands of a mathematical typesetter. It has no parentheses but those
of calls, a coefficient or an exponent of one is left out, and a power shows only its exponent: the
base is written by whoever places the text.
-/
namespace SymbolicAlgebra

variable {α : Type} [Scalar α] [Numeral α]

/-- A text as the argument of a typesetting command. -/
def braced (text : String) : String := "\x7b" ++ text ++ "\x7d"

def Monomial.typeset (m : Monomial α) : String :=
  (if Scalar.eqv m.coefficient (Scalar.natural 1) then "" else Numeral.text m.coefficient)
    ++ m.var
    ++ (if Scalar.eqv m.exponent (Scalar.natural 1) then ""
      else "^" ++ braced (Numeral.text m.exponent))

namespace Expr

/-- An operation in typeset form, from the forms of its operands. -/
def typesetBinary (op : Operator) (l r : String) : String :=
  match op with
  | .pow => "^" ++ braced r
  | .div => "\\frac" ++ braced l ++ braced r
  | .mul => l ++ "\\cdot" ++ r
  | _ => l ++ op.symbol ++ r

mutual

/-- The typeset form of a tree. -/
def typeset : Expr α → String
  | .number x => Numeral.text x
  | .negate e => "-" ++ typeset e
  | .binary op l r => typesetBinary op (typeset l) (typeset r)
  | .call f args => f ++ "(" ++ ", ".intercalate (typesetAll args) ++ ")"
  | .monomial m => m.typeset
  | .constant name _ => name

/-- The typeset forms of a list of trees. -/
def typesetAll : List (Expr α) → List String
  | [] => []
  | e :: es => typeset e :: typesetAll es

end

theorem typesetAll_eq_map (es : List (Expr α)) : typesetAll es = es.map typeset := by
  induction es with
  | nil => rfl
  | cons e es ih => simp [typesetAll, ih]

end Expr
end SymbolicAlgebra
