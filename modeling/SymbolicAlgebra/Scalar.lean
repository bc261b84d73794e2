/-!
# Numbers that trees are built from

Rewriting, evaluating and printing use only the operations listed here, so one set of definitions
serves binary floating point and exact arithmetic alike.

* `Scalar`: the arithmetic, the comparisons and the two equalities of leaves.
* `Elementary`: the functions that a call can name.
* `Numeral`: how a number is read and written.
-/
namespace SymbolicAlgebra

/-- The arithmetic that trees are rewritten and evaluated with. Every operation is total: an
undefined result is a value of `α` that `isWhole` rejects and that `eqv` equates with nothing. -/
class Scalar (α : Type) where
  /-- The number that a natural number stands for. -/
  natural : Nat → α
  add : α → α → α
  sub : α → α → α
  mul : α → α → α
  div : α → α → α
  /-- The remainder of truncated division, which has the sign of the dividend. -/
  rem : α → α → α
  pow : α → α → α
  neg : α → α
  abs : α → α
  /-- Equality of values. An undefined value equals nothing, itself included. -/
  eqv : α → α → Bool
  /-- Equality of leaves. It extends `eqv` by making undefined values equal to each other. -/
  same : α → α → Bool
  isNegative : α → Bool
  /-- Whether the value is a finite integer. -/
  isWhole : α → Bool

/-- The functions of one argument that a call can name. Angles are in degrees. -/
inductive UnaryFunction
  | sin
  | cos
  | tan
  | arcsin
  | arccos
  | arctan
  | abs
  | floor
  | ceil
  | round
  | trunc
  | fract
  | sqrt
deriving DecidableEq, Repr

/-- The functions that a call can name and that arithmetic does not already give. -/
class Elementary (α : Type) extends Scalar α where
  unary : UnaryFunction → α → α
  /-- The lesser of two values, an undefined one being passed over. -/
  minimum : α → α → α
  /-- The greater of two values, an undefined one being passed over. -/
  maximum : α → α → α

/-- How numbers are read and written. -/
class Numeral (α : Type) where
  /-- The number nearest to `digits / 10 ^ places`. -/
  ofDecimal (digits places : Nat) : α
  /-- The text of a number inside an expression. -/
  text : α → String
  /-- The text of a number that is an answer of its own. -/
  answer : α → String
  /-- The value rounded to a count of decimal places, a half going to the even neighbour. A
  negative count rounds to the left of the point. -/
  roundPlaces : Int → α → α

end SymbolicAlgebra
