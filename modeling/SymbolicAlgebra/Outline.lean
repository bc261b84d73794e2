import SymbolicAlgebra.Expr.Basic
/-!
# Outlines

The shape of an expression with a label at each node, and the line that a node has in a listing.

* `Expr.outline`: the outline of a tree.
* `Outline.line`: the line of a label at a level.
-/
namespace SymbolicAlgebra

inductive Outline
  | node (label : String) (parts : List Outline)
deriving Repr

namespace Outline

/-- A label at a level. -/
def line (indent level : Nat) (label : String) : String :=
  String.ofList (List.replicate (indent * level) ' ') ++ label

end Outline

namespace Expr

variable {α : Type} [Numeral α]

/-- A kind of node with what distinguishes it, or the kind alone where nothing does. -/
def labelled (kind detail : String) : String :=
  if detail = "" then kind else kind ++ ": " ++ detail

mutual

/-- The outline of a tree. -/
def outline : Expr α → Outline
  | .number x => .node (labelled "Number" (Numeral.text x)) []
  | .negate e => .node "UnaryMinus" [outline e]
  | .binary op l r => .node (labelled "BinOp" op.title) [outline l, outline r]
  | .call f args => .node (labelled "Function" f) (outlineAll args)
  | .monomial m =>
    .node (labelled "Monomial"
      (Numeral.text m.coefficient ++ " " ++ m.var ++ "^" ++ Numeral.text m.exponent)) []
  | .constant name _ => .node (labelled "Constant" name) []

def outlineAll : List (Expr α) → List Outline
  | [] => []
  | e :: es => outline e :: outlineAll es

end

end Expr
end SymbolicAlgebra
