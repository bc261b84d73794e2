import SymbolicAlgebra.Rewrite.Fold
import SymbolicAlgebra.Rewrite.Pass
/-!
# Simplification

Passes of rewriting and folding alternate until a pass changes nothing. A ceiling on the count of
passes keeps the loop finite.
-/
namespace SymbolicAlgebra

/-- A rewriting that notes what it does and may fail. -/
abbrev Rewriting (α : Type) (β : Type) := Attempt (RewriteError α) (Event α) β

namespace Expr

variable {α : Type} [Scalar α]

/-- Rewrites and folds until a pass changes nothing, with a number of passes left of those that the
ceiling allows. -/
def settle (target : String) (ceiling : Nat) : (left : Nat) → Expr α → Rewriting α (Expr α)
  | 0, _ => throw (.unsettled ceiling)
  | left + 1, current => do
    let latest ← .traced (pass target current)
    if latest.same current then
      .note (.converged (ceiling - left) latest)
      return latest
    else
      .note (.newCycle latest)
      let next ← .ofExcept (fold latest)
      settle target ceiling left next

/-- The simplest form of a tree. A first pass and a first folding are done in any case and are not
counted. -/
def simplify (target : String) (ceiling : Nat) (e : Expr α) : Rewriting α (Expr α) := do
  let latest ← .traced (pass target e)
  let current ← .ofExcept (fold latest)
  settle target ceiling ceiling current

end Expr
end SymbolicAlgebra
