import SymbolicAlgebra.Operator
/-!
# Expressions

A tree over numbers of any type. An equation is a tree whose root is `=`; nothing keeps `=` from
standing elsewhere, and evaluation and folding reject it there.

* `Expr.same`: equality of trees, numbers being compared by `Scalar.same`.
-/
namespace SymbolicAlgebra

/-- `coefficient * var ^ exponent`. -/
structure Monomial (α : Type) where
  coefficient : α
  var : String
  exponent : α
deriving DecidableEq, Repr

inductive Expr (α : Type)
  | number (value : α)
  | negate (inner : Expr α)
  | binary (op : Operator) (lhs rhs : Expr α)
  | call (name : String) (args : List (Expr α))
  | monomial (m : Monomial α)
  | constant (name : String) (value : α)
deriving Repr

namespace Monomial

variable {α : Type} [Scalar α]

/-- Whether two monomials have the same variable and the same exponent. -/
def like (a b : Monomial α) : Bool := a.var == b.var && Scalar.eqv a.exponent b.exponent

/-- Equality of monomials as leaves. -/
def same (a b : Monomial α) : Bool :=
  Scalar.same a.coefficient b.coefficient && a.var == b.var && Scalar.same a.exponent b.exponent

end Monomial

namespace Expr

variable {α : Type}

def isEquation : Expr α → Bool
  | .binary .equals _ _ => true
  | _ => false

def isMonomial : Expr α → Bool
  | .monomial _ => true
  | _ => false

/-- Whether a tree is a monomial of the variable `target`. -/
def isTarget (target : String) : Expr α → Bool
  | .monomial m => m.var == target
  | _ => false

/-- The literal that stands for a natural number. -/
def literal [Scalar α] (n : Nat) : Expr α := .number (Scalar.natural n)

/-- Whether a tree is a number equal to `n`. -/
def isLiteral [Scalar α] (n : Nat) : Expr α → Bool
  | .number x => Scalar.eqv x (Scalar.natural n)
  | _ => false

mutual

/-- Equality of trees, field by field. -/
def same [Scalar α] : Expr α → Expr α → Bool
  | .number x, .number y => Scalar.same x y
  | .negate a, .negate b => same a b
  | .binary o a b, .binary p c d => o == p && same a c && same b d
  | .call f as, .call g bs => f == g && sameAll as bs
  | .monomial m, .monomial n => m.same n
  | .constant c x, .constant d y => c == d && Scalar.same x y
  | _, _ => false

/-- Equality of lists of trees. -/
def sameAll [Scalar α] : List (Expr α) → List (Expr α) → Bool
  | [], [] => true
  | a :: as, b :: bs => same a b && sameAll as bs
  | _, _ => false

end

end Expr
end SymbolicAlgebra
