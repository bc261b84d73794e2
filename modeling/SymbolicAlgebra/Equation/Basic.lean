import SymbolicAlgebra.Expr.Basic
/-!
# Equations
-/
namespace SymbolicAlgebra

/-- Two sides that are said to be equal. -/
structure Equation (α : Type) where
  lhs : Expr α
  rhs : Expr α
deriving Repr

namespace Equation

variable {α : Type}

/-- The tree with `=` at its root. -/
def toExpr (e : Equation α) : Expr α := .binary .equals e.lhs e.rhs

/-- The equation that a tree is, if its root is `=`. -/
def ofExpr? : Expr α → Option (Equation α)
  | .binary .equals lhs rhs => some ⟨lhs, rhs⟩
  | _ => none

/-- Equality of both sides as trees. -/
def same [Scalar α] (a b : Equation α) : Bool := a.lhs.same b.lhs && a.rhs.same b.rhs

theorem ofExpr?_toExpr (e : Equation α) : ofExpr? e.toExpr = some e := rfl

theorem toExpr_of_ofExpr? {t : Expr α} {e : Equation α} (h : ofExpr? t = some e) :
    e.toExpr = t := by
  unfold ofExpr? at h
  split at h
  · cases h; rfl
  · contradiction

theorem same_toExpr [Scalar α] (a b : Equation α) : a.toExpr.same b.toExpr = a.same b := by
  simp [toExpr, same, Expr.same]

end Equation
end SymbolicAlgebra
