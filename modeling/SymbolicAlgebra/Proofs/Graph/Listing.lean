import SymbolicAlgebra.Outline
import SymbolicAlgebra.Proofs.Expr.Subtree
import SymbolicAlgebra.Proofs.Graph.Placement

/-!
# Listings of trees

A tree is listed with a line for each of its nodes, a node before its operands and
these from left to right. A line is the label of the node behind `indent` blanks
for each level above it. The words of the labels and the blanks are written out
here, and the recursion is that of the tree, so nothing is said by way of an
outline or a graph.

Results:
* `Expr.labels_outline`, `Expr.size_outline`, `Expr.height_outline`: an outline has the labels, the
  nodes and the height of its tree.
* `Expr.listing_eq_placed`: the listing of a tree has a line for each place of its outline.
-/
namespace SymbolicAlgebra.Expr

open Outline (Place placed placedAll labelsAll)

variable {α : Type}

mutual

/-- The greatest depth of a node, the root having depth zero. -/
def height : Expr α → Nat
  | .number _ | .monomial _ | .constant _ _ => 0
  | .negate e => height e + 1
  | .binary _ l r => max (height l) (height r) + 1
  | .call _ args => heightAll args

/-- The greatest depth of a node below a call with these arguments, or zero. -/
def heightAll : List (Expr α) → Nat
  | [] => 0
  | e :: es => max (height e + 1) (heightAll es)

end

variable [Numeral α]

/-- The label of the root: its kind and, behind a colon, what tells it from others of its kind, if
there is anything. -/
def heading : Expr α → String
  | .number x => if Numeral.text x = "" then "Number" else "Number: " ++ Numeral.text x
  | .negate _ => "UnaryMinus"
  | .binary .add _ _ => "BinOp: Add"
  | .binary .sub _ _ => "BinOp: Subtract"
  | .binary .mul _ _ => "BinOp: Multiply"
  | .binary .div _ _ => "BinOp: Divide"
  | .binary .mod _ _ => "BinOp: Modulo"
  | .binary .pow _ _ => "BinOp: Power"
  | .binary .equals _ _ => "BinOp: Equals"
  | .call name _ => if name = "" then "Function" else "Function: " ++ name
  | .monomial m =>
    "Monomial: " ++ Numeral.text m.coefficient ++ " " ++ m.var ++ "^" ++ Numeral.text m.exponent
  | .constant name _ => if name = "" then "Constant" else "Constant: " ++ name

/-- The line of a root that has the given depth. -/
def entry (indent depth : Nat) (e : Expr α) : String :=
  String.ofList (List.replicate (indent * depth) ' ') ++ e.heading

mutual

/-- The listing of a tree whose root has the given depth. Operands are one level deeper. -/
def listing (indent depth : Nat) : Expr α → List String
  | .number x => [entry indent depth (.number x)]
  | .negate e => entry indent depth (.negate e) :: listing indent (depth + 1) e
  | .binary op l r =>
    entry indent depth (.binary op l r) ::
      (listing indent (depth + 1) l ++ listing indent (depth + 1) r)
  | .call name args => entry indent depth (.call name args) :: listingAll indent (depth + 1) args
  | .monomial m => [entry indent depth (.monomial m)]
  | .constant name x => [entry indent depth (.constant name x)]

def listingAll (indent depth : Nat) : List (Expr α) → List String
  | [] => []
  | e :: es => listing indent depth e ++ listingAll indent depth es

end

/-! ## The outline of a tree -/

variable {op : Operator} {l r : Expr α} {m : Monomial α} {es : List (Expr α)}

theorem outline_binary :
    (binary op l r).outline = .node (binary op l r).heading [l.outline, r.outline] := by
  cases op <;> rfl

theorem outline_monomial : (monomial m).outline = .node (monomial m).heading [] := by
  rw [outline, labelled, if_neg (by simp)]
  simp [heading, String.append_assoc]

theorem labelsAll_outlineAll (h : ∀ e ∈ es, e.outline.labels = e.subtrees.map heading) :
    labelsAll (outlineAll es) = (subtreesAll es).map heading := by
  induction es with
  | nil => rfl
  | cons e es ih =>
    rw [List.forall_mem_cons] at h
    rw [outlineAll, labelsAll, h.1, ih h.2, subtreesAll, List.map_append]

theorem labels_outline (e : Expr α) : e.outline.labels = e.subtrees.map heading := by
  induction e with
  | number x | constant name x => rfl
  | monomial m =>
    rw [outline_monomial]
    rfl
  | negate e ih =>
    rw [outline, Outline.labels, labelsAll, ih, labelsAll, List.append_nil, subtrees, List.map_cons,
      heading]
  | binary op l r ihl ihr =>
    rw [outline_binary, Outline.labels, labelsAll, labelsAll, labelsAll, ihl, ihr, List.append_nil,
      subtrees, List.map_cons, List.map_append]
  | call name args ih =>
    rw [outline, Outline.labels, labelsAll_outlineAll ih, subtrees, List.map_cons]
    rfl

/-- An outline has as many nodes as its tree. -/
theorem size_outline (e : Expr α) : e.outline.size = e.subtrees.length := by
  rw [← Outline.length_labels, labels_outline, List.length_map]

theorem heightAll_outlineAll (h : ∀ e ∈ es, e.outline.height = e.height) :
    Outline.heightAll (outlineAll es) = heightAll es := by
  induction es with
  | nil => rfl
  | cons e es ih =>
    rw [List.forall_mem_cons] at h
    rw [outlineAll, Outline.heightAll, h.1, ih h.2, heightAll]

theorem height_outline (e : Expr α) : e.outline.height = e.height := by
  induction e with
  | number | constant | monomial => rfl
  | negate e ih =>
    rw [outline, Outline.height, Outline.heightAll, Outline.heightAll, ih, height, Nat.max_zero]
  | binary op l r ihl ihr =>
    rw [outline, Outline.height, Outline.heightAll, Outline.heightAll, Outline.heightAll, ihl, ihr,
      height, Nat.max_zero, Nat.add_max_add_right]
  | call name args ih => rw [outline, Outline.height, heightAll_outlineAll ih, height]

theorem listingAll_eq_placedAll {indent : Nat}
    (h : ∀ e ∈ es, ∀ id depth,
      e.listing indent depth = (placed id depth e.outline).map (Place.line indent)) (id depth : Nat) :
    listingAll indent depth es = (placedAll id depth (outlineAll es)).map (Place.line indent) := by
  induction es generalizing id with
  | nil => rfl
  | cons e es ih =>
    rw [List.forall_mem_cons] at h
    rw [listingAll, outlineAll, placedAll, List.map_append, h.1 id depth,
      ih h.2 (id + e.outline.size)]

/-- The listing of a tree has a line for each place of its outline. -/
theorem listing_eq_placed (indent id depth : Nat) (e : Expr α) :
    e.listing indent depth = (placed id depth e.outline).map (Place.line indent) := by
  induction e generalizing id depth with
  | number x | constant name x => rfl
  | monomial m =>
    rw [outline_monomial]
    rfl
  | negate e ih =>
    rw [listing, outline, placed, placedAll, placedAll, List.append_nil, List.map_cons,
      ih (id + 1) (depth + 1)]
    rfl
  | binary op l r ihl ihr =>
    -- the right operand stands behind all nodes of the left one
    rw [listing, outline_binary, placed, placedAll, placedAll, placedAll, List.append_nil,
      List.map_cons, List.map_append, ihl (id + 1) (depth + 1),
      ihr (id + 1 + l.outline.size) (depth + 1)]
    rfl
  | call name args ih =>
    rw [listing, outline, placed, List.map_cons,
      listingAll_eq_placedAll (fun a ha id depth => ih a ha id depth) (id + 1) (depth + 1)]
    rfl

end SymbolicAlgebra.Expr
