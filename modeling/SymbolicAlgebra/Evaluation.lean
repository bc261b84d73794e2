import SymbolicAlgebra.Builtin
import SymbolicAlgebra.Expr.Basic
/-!
# The value of an expression

Operands are evaluated from left to right, after the node itself is checked: an equation has no
value, and a call must name a function that takes its count of arguments. A variable has no value.
-/
namespace SymbolicAlgebra

variable {α : Type} [Elementary α]

/-- The value of an operation. A remainder is taken without its sign. -/
def Operator.value (op : Operator) (a b : α) : Except EvalError α :=
  match op.result? a b with
  | none => .error .equality
  | some x => .ok (if op = .mod then Scalar.abs x else x)

/-- The value of a call of the function `b` under its name. -/
def Builtin.call (b : Builtin) (name : String) (xs : List α) : Except EvalError α :=
  match b.result? xs with
  | none => .error (.arity name b.arity xs.length)
  | some x => .ok x

namespace Expr

mutual

/-- The value of a tree. -/
def value : Expr α → Except EvalError α
  | .number x => .ok x
  | .constant _ x => .ok x
  | .negate e => do return Scalar.neg (← value e)
  | .binary op l r =>
    if op = .equals then .error .equality
    else do
      let a ← value l
      let b ← value r
      op.value a b
  | .call f args => do
    let b ← Builtin.find f args.length
    let xs ← values args
    b.call f xs
  | .monomial m => .error (.unbound m.var)

/-- The values of a list of trees, from left to right. -/
def values : List (Expr α) → Except EvalError (List α)
  | [] => .ok []
  | e :: es => do
    let x ← value e
    let xs ← values es
    return x :: xs

end

end Expr
end SymbolicAlgebra
