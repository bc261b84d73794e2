import SymbolicAlgebra.Binary64.Angle
import SymbolicAlgebra.Binary64.Integral
import SymbolicAlgebra.Decimal.Layout
import SymbolicAlgebra.Decimal.Places
import SymbolicAlgebra.Scalar
/-!
# Doubles as the numbers of trees

No operation traps: division by zero gives an infinity or the undefined value.
-/
namespace SymbolicAlgebra.Binary64

/-- The functions of one argument, angles in degrees. -/
def unary : UnaryFunction → Float → Float
  | .sin, x => Float.sin (radians x)
  | .cos, x => Float.cos (radians x)
  | .tan, x => Float.tan (radians x)
  | .arcsin, x => degrees (Float.asin x)
  | .arccos, x => degrees (Float.acos x)
  | .arctan, x => degrees (Float.atan x)
  | .abs, x => x.abs
  | .floor, x => floor x
  | .ceil, x => ceil x
  | .round, x => round x
  | .trunc, x => trunc x
  | .fract, x => fract x
  | .sqrt, x => x.sqrt

/-- The lesser of two doubles. An undefined one is passed over. -/
def minimum (x y : Float) : Float :=
  if x.isNaN then y else if y.isNaN then x else if x ≤ y then x else y

/-- The greater of two doubles. An undefined one is passed over. -/
def maximum (x y : Float) : Float :=
  if x.isNaN then y else if y.isNaN then x else if y ≤ x then x else y

instance : Elementary Float where
  natural := Float.ofNat
  add := (· + ·)
  sub := (· - ·)
  mul := (· * ·)
  div := (· / ·)
  rem := rem
  pow := Float.pow
  neg := (- ·)
  abs := Float.abs
  eqv := (· == ·)
  same x y := x == y || (x.isNaN && y.isNaN)
  isNegative := (· < 0.0)
  isWhole := isWhole
  unary := unary
  minimum := minimum
  maximum := maximum

instance : Numeral Float where
  ofDecimal digits places := Float.ofScientific digits true places
  text := text
  answer := answer
  roundPlaces := Decimal.roundPlaces

end SymbolicAlgebra.Binary64
