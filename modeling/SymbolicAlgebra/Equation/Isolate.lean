import SymbolicAlgebra.Equation.Transposition
import SymbolicAlgebra.Rewrite.Simplify
/-!
# Isolating a variable

Transpositions and simplification of both sides alternate until the equation stays the same.
-/
namespace SymbolicAlgebra

variable {α : Type} [Scalar α]

namespace Equation

/-- Simplifies both sides, the left one first. -/
def normalize (target : String) (ceiling : Nat) (e : Equation α) : Rewriting α (Equation α) := do
  let lhs ← e.lhs.simplify target ceiling
  let rhs ← e.rhs.simplify target ceiling
  return ⟨lhs, rhs⟩

/-- The equation after one transposition, or as it is where none applies. -/
def transpose (target : String) (e : Equation α) : Traced (Event α) (Equation α) :=
  Traced.ofStep ((e.transpose? target).map fun (t, e) => (.transposed t, e)) e

/-- Transposes and simplifies until the equation stays the same, with a number of steps left of
those that the ceiling allows. -/
def settle (target : String) (ceiling : Nat) :
    (left : Nat) → Equation α → Rewriting α (Equation α)
  | 0, _ => throw (.unsettled ceiling)
  | left + 1, previous => do
    let moved ← .traced (transpose target previous)
    let current ← normalize target ceiling moved
    if current.same previous then
      .note (.settled (ceiling - left) current.toExpr)
      return current
    else settle target ceiling left current

/-- The equation with `target` moved to the left as far as transpositions take it. -/
def isolate (target : String) (ceiling : Nat) (e : Equation α) : Rewriting α (Equation α) := do
  let start ← normalize target ceiling e
  settle target ceiling ceiling start

end Equation

namespace Expr

/-- The equation that a tree must be. -/
def asEquation (e : Expr α) : Except (RewriteError α) (Equation α) :=
  match Equation.ofExpr? e with
  | some equation => .ok equation
  | none => .error (.notEquation e)

/-- A tree, which must be an equation, after one transposition. -/
def transpose (target : String) (e : Expr α) : Rewriting α (Expr α) := do
  let equation ← .ofExcept (asEquation e)
  let moved ← .traced (equation.transpose target)
  return moved.toExpr

/-- A tree, which must be an equation, with `target` isolated. -/
def isolate (target : String) (ceiling : Nat) (e : Expr α) : Rewriting α (Expr α) := do
  let equation ← .ofExcept (asEquation e)
  let isolated ← equation.isolate target ceiling
  return isolated.toExpr

end Expr
end SymbolicAlgebra
