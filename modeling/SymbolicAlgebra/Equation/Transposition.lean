import SymbolicAlgebra.Equation.Basic
/-!
# Moving a target variable across an equation

A transposition takes a monomial of the target out of a sum, a difference, a negation or its
coefficient, and changes the other side to match.

* `Equation.transpose?`: the first transposition that applies, with its name.
-/
namespace SymbolicAlgebra

/-- The ways to move a term. Each is named for the place of the target. -/
inductive Transposition
  | leftAugend
  | leftAddend
  | rightAugend
  | rightAddend
  | leftMinuend
  | leftSubtrahend
  | rightMinuend
  | rightSubtrahend
  | negated
  | scaled
deriving DecidableEq, Repr

/-- The transposition as a schema, `T` being the target. -/
def Transposition.label : Transposition → String
  | leftAugend => "T+a = b => T = b-a"
  | leftAddend => "a+T = b => T = b-a"
  | rightAugend => "a = T+b => a-T = b"
  | rightAddend => "a = b+T => a-T = b"
  | leftMinuend => "T-a = b => T = b+a"
  | leftSubtrahend => "a-T = b => T = -b+a"
  | rightMinuend => "a = T-b => a-T = -b"
  | rightSubtrahend => "a = b-T => a+T = b"
  | negated => "-(T) = a => T = -(a)"
  | scaled => "reducing coefficient"

namespace Equation

variable {α : Type}

/-- Moves the other term of a sum on the left. -/
def fromLeftSum? (target : String) : Equation α → Option (Transposition × Equation α)
  | ⟨.binary .add a b, rhs⟩ =>
    if a.isTarget target then some (.leftAugend, ⟨a, .binary .sub rhs b⟩)
    else if b.isTarget target then some (.leftAddend, ⟨b, .binary .sub rhs a⟩)
    else none
  | _ => none

/-- Moves the target out of a sum on the right. -/
def fromRightSum? (target : String) : Equation α → Option (Transposition × Equation α)
  | ⟨lhs, .binary .add a b⟩ =>
    if a.isTarget target then some (.rightAugend, ⟨.binary .sub lhs a, b⟩)
    else if b.isTarget target then some (.rightAddend, ⟨.binary .sub lhs b, a⟩)
    else none
  | _ => none

/-- Moves the other term of a difference on the left. -/
def fromLeftDifference? (target : String) : Equation α → Option (Transposition × Equation α)
  | ⟨.binary .sub a b, rhs⟩ =>
    if a.isTarget target then some (.leftMinuend, ⟨a, .binary .add rhs b⟩)
    else if b.isTarget target then some (.leftSubtrahend, ⟨b, .binary .add (.negate rhs) a⟩)
    else none
  | _ => none

/-- Moves the target out of a difference on the right. -/
def fromRightDifference? (target : String) : Equation α → Option (Transposition × Equation α)
  | ⟨lhs, .binary .sub a b⟩ =>
    if a.isTarget target then some (.rightMinuend, ⟨.binary .sub lhs a, .negate b⟩)
    else if b.isTarget target then some (.rightSubtrahend, ⟨.binary .add lhs b, a⟩)
    else none
  | _ => none

/-- Moves the sign of a negated target on the left. -/
def fromNegation? (target : String) : Equation α → Option (Transposition × Equation α)
  | ⟨.negate a, rhs⟩ =>
    if a.isTarget target then some (.negated, ⟨a, .negate rhs⟩) else none
  | _ => none

/-- Divides by the coefficient of a target that stands alone on the left. -/
def fromCoefficient? [Scalar α] (target : String) :
    Equation α → Option (Transposition × Equation α)
  | ⟨.monomial m, rhs⟩ =>
    if m.var = target then
      some (.scaled, ⟨.monomial { m with coefficient := Scalar.natural 1 },
        .binary .div rhs (.number m.coefficient)⟩)
    else none
  | _ => none

/-- The first transposition that moves `target` toward the left side alone: sums before
differences, the left side before the right, and then the sign and the coefficient. -/
def transpose? [Scalar α] (target : String) (e : Equation α) :
    Option (Transposition × Equation α) :=
  e.fromLeftSum? target <|> e.fromRightSum? target <|>
    e.fromLeftDifference? target <|> e.fromRightDifference? target <|>
    e.fromNegation? target <|> e.fromCoefficient? target

end Equation
end SymbolicAlgebra
