/-!
# Sets of characters as ranges of code points

A property of characters is listed as the closed ranges of code points that have it, in increasing
order, so that a search may stop at the first range beyond the character.
-/
namespace SymbolicAlgebra.Text

/-- Whether a code point lies in one of the ranges. The ranges are in increasing order. -/
def inRanges (point : Nat) : List (Nat × Nat) → Bool
  | [] => false
  | (low, high) :: rest => low ≤ point && (point ≤ high || inRanges point rest)

end SymbolicAlgebra.Text
