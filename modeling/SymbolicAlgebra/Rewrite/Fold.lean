import SymbolicAlgebra.Expr.Basic
/-!
# Folding literals

An operation on two literals is replaced by its result where that is a whole number. Other results
stay as they are written, so that no digits are lost.
-/
namespace SymbolicAlgebra

/-- Why rewriting gave no tree. -/
inductive RewriteError (α : Type)
  /-- The two sides of an equation became literals. -/
  | equality
  /-- The tree still changed after the greatest count of passes. -/
  | unsettled (passes : Nat)
  /-- An equation was needed. -/
  | notEquation (tree : Expr α)
deriving Repr

namespace Expr

variable {α : Type} [Scalar α]

/-- Folds an operation whose operands are folded. -/
def foldBinary (op : Operator) (l r : Expr α) : Except (RewriteError α) (Expr α) :=
  match l, r with
  | .number a, .number b =>
    match op.result? a b with
    | none => .error .equality
    | some x => .ok (if Scalar.isWhole x then .number x else .binary op l r)
  | _, _ => .ok (.binary op l r)

mutual

/-- Folds the literals of a tree, from the leaves up. -/
def fold : Expr α → Except (RewriteError α) (Expr α)
  | .number x => .ok (.number x)
  | .constant name x => .ok (.constant name x)
  | .monomial m => .ok (.monomial m)
  | .negate e => do
    let e ← fold e
    return .negate e
  | .binary op l r => do
    let l ← fold l
    let r ← fold r
    foldBinary op l r
  | .call name args => do
    let args ← foldAll args
    return .call name args

/-- Folds the literals of a list of trees, from left to right. -/
def foldAll : List (Expr α) → Except (RewriteError α) (List (Expr α))
  | [] => .ok []
  | e :: es => do
    let e ← fold e
    let es ← foldAll es
    return e :: es

end

end Expr
end SymbolicAlgebra
