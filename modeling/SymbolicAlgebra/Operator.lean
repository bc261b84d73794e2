import SymbolicAlgebra.Scalar
/-!
# Operators

The symbols that join two operands. All but `=` compute; `=` relates the two sides of an equation,
so it has no rank among the others and no result.
-/
namespace SymbolicAlgebra

inductive Operator
  | add
  | sub
  | mul
  | div
  | mod
  | pow
  | equals
deriving DecidableEq, Repr

namespace Operator

def symbol : Operator → String
  | add => "+"
  | sub => "-"
  | mul => "*"
  | div => "/"
  | mod => "%"
  | pow => "^"
  | equals => "="

/-- The word that a tree dump uses for an operator. -/
def title : Operator → String
  | add => "Add"
  | sub => "Subtract"
  | mul => "Multiply"
  | div => "Divide"
  | mod => "Modulo"
  | pow => "Power"
  | equals => "Equals"

/-- The operator written with a character. -/
def ofChar? : Char → Option Operator
  | '+' => some add
  | '-' => some sub
  | '*' => some mul
  | '/' => some div
  | '%' => some mod
  | '^' => some pow
  | '=' => some equals
  | _ => none

/-- How tightly an operator binds. -/
def rank : Operator → Nat
  | equals => 0
  | add | sub => 1
  | mul | div | mod => 2
  | pow => 3

/-- Whether `a op b` is complete when `next` follows `b`. Operators of one rank group to the left,
powers to the right. -/
def closesBefore (op next : Operator) : Bool :=
  next.rank < op.rank || (next.rank == op.rank && op != pow)

/-- Whether an operator is a sum or a difference. -/
def isAdditive : Operator → Bool
  | add | sub => true
  | _ => false

/-- Whether an operator is a product or a quotient. -/
def isMultiplicative : Operator → Bool
  | mul | div => true
  | _ => false

variable {α : Type} [Scalar α]

/-- The result of an operator on two numbers; `=` has none. -/
def result? : Operator → α → α → Option α
  | add, a, b => some (Scalar.add a b)
  | sub, a, b => some (Scalar.sub a b)
  | mul, a, b => some (Scalar.mul a b)
  | div, a, b => some (Scalar.div a b)
  | mod, a, b => some (Scalar.rem a b)
  | pow, a, b => some (Scalar.pow a b)
  | equals, _, _ => none

end Operator
end SymbolicAlgebra
