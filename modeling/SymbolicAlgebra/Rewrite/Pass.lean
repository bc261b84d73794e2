import SymbolicAlgebra.Rewrite.Distribute
import SymbolicAlgebra.Rewrite.Local
/-!
# One pass of rewriting

A pass goes through a tree from the leaves up and rewrites each node at most once, after its
operands. The sides of an equation are rewritten on their own.
-/
namespace SymbolicAlgebra.Expr

variable {α : Type} [Scalar α]

/-- What a matching rule does, as a step to be noted. -/
def fired (m : Match α) : Option (Event α × Expr α) := m.map fun (rule, e) => (.fired rule, e)

/-- The step at an operation: a rule of its operator, or else its monomials are distributed. -/
def binaryStep? (target : String) (op : Operator) (l r : Expr α) : Option (Event α × Expr α) :=
  match op with
  | .equals => none
  | op => fired (binaryRule? op l r) <|> distribute? target op l r

mutual

/-- A tree after one pass that moves monomials of `target` outward. -/
def pass (target : String) : Expr α → Traced (Event α) (Expr α)
  | .number x => pure (.number x)
  | .constant name x => pure (.constant name x)
  | .monomial m => Traced.ofStep (fired (monomialRule? m)) (.monomial m)
  | .negate e => do
    let e ← pass target e
    Traced.ofStep (fired (negationRule? e)) (.negate e)
  | .binary op l r => do
    let l ← pass target l
    let r ← pass target r
    Traced.ofStep (binaryStep? target op l r) (.binary op l r)
  | .call name args => do
    let args ← passAll target args
    pure (.call name args)

/-- A list of trees after one pass over each, from left to right. -/
def passAll (target : String) : List (Expr α) → Traced (Event α) (List (Expr α))
  | [] => pure []
  | e :: es => do
    let e ← pass target e
    let es ← passAll target es
    pure (e :: es)

end

end SymbolicAlgebra.Expr
