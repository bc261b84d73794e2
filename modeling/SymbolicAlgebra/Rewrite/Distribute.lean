import SymbolicAlgebra.Event
/-!
# Combining and moving monomials

Where no rule of the operator matches, two monomials of one variable are combined, and a monomial of
the target variable is moved outward past another monomial.

* `Monomial.merge?`: like terms under a sum or a difference, and any two under a product.
* `Expr.hoist?`: `(a ± T) ± b` becomes `(a ± b) ± T`, and the same for products and quotients.
-/
namespace SymbolicAlgebra

variable {α : Type} [Scalar α]

/-- The monomial that an operator makes of two, where there is one. -/
def Monomial.merge? (op : Operator) (a b : Monomial α) : Option (Monomial α) :=
  if a.var != b.var then none
  else match op with
    | .add => if a.like b then some { a with coefficient := Scalar.add a.coefficient b.coefficient }
      else none
    | .sub => if a.like b then some { a with coefficient := Scalar.sub a.coefficient b.coefficient }
      else none
    | .mul => some ⟨Scalar.mul a.coefficient b.coefficient, a.var, Scalar.add a.exponent b.exponent⟩
    | _ => none

/-- Whether an operand under `inner` may trade places with one under `outer`. -/
def Operator.commutesPast (outer inner : Operator) : Bool :=
  (outer.isAdditive && inner.isAdditive) || (outer.isMultiplicative && inner.isMultiplicative)

namespace Expr

/-- Moves a monomial of the target out of the left operand, past a monomial of another variable. A
target that stands first in a quotient stays where it is. -/
def hoist? (target : String) (op : Operator) (l r : Expr α) : Option (Side × Expr α) :=
  match l, r with
  | .binary inner a b, .monomial m =>
    if m.var = target || !op.commutesPast inner then none
    else if b.isTarget target then some (.right, .binary inner (.binary op a r) b)
    else if a.isTarget target && (op.isAdditive || op == .mul) then
      let moved := if op = .sub then .negate r else r
      some (.left, .binary (if op.isAdditive then .add else .mul) (.binary inner moved b) a)
    else none
  | _, _ => none

/-- Combines two monomials or moves one outward. -/
def distribute? (target : String) (op : Operator) (l r : Expr α) : Option (Event α × Expr α) :=
  match l, r with
  | .monomial a, .monomial b => (a.merge? op b).map fun m => (.merged op a b m, .monomial m)
  | _, _ => (hoist? target op l r).map fun (side, e) => (.hoisted side, e)

/-- An operation with its monomials combined or moved outward where that is possible. -/
def distribute (target : String) (op : Operator) (l r : Expr α) : Traced (Event α) (Expr α) :=
  Traced.ofStep (distribute? target op l r) (.binary op l r)

end Expr
end SymbolicAlgebra
