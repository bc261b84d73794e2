import SymbolicAlgebra.Scalar

/-!
# Sign and equality of leaves

The rules look at a number's sign in one place, where a negative coefficient
becomes a negation. `LawfulSign` collects what makes that rule stop: equality
of leaves is reflexive and keeps the sign, and negating a negative number does
not give a negative one. Undefined values and the two zeros meet these laws
too, so nothing else about rounding is needed. `LawfulOne` says that the number
one, to which isolating sets a coefficient, is neither zero nor negative.
-/
namespace SymbolicAlgebra

class LawfulSign (α : Type) [Scalar α] : Prop where
  same_self : ∀ x : α, Scalar.same x x = true
  isNegative_of_same : ∀ {x y : α}, Scalar.same x y = true →
    Scalar.isNegative x = Scalar.isNegative y
  isNegative_neg : ∀ {x : α}, Scalar.isNegative x = true →
    Scalar.isNegative (Scalar.neg x) = false

class LawfulOne (α : Type) [Scalar α] : Prop where
  eqv_one_of_same : ∀ {x : α}, Scalar.same (Scalar.natural 1) x = true →
    Scalar.eqv x (Scalar.natural 1) = true
  eqv_one_zero : Scalar.eqv (Scalar.natural 1 : α) (Scalar.natural 0) = false
  isNegative_one : Scalar.isNegative (Scalar.natural 1 : α) = false

theorem eqv_one_one {α : Type} [Scalar α] [LawfulSign α] [LawfulOne α] :
    Scalar.eqv (Scalar.natural 1 : α) (Scalar.natural 1) = true :=
  LawfulOne.eqv_one_of_same (LawfulSign.same_self _)

end SymbolicAlgebra
