import SymbolicAlgebra.Binary64.Units
/-!
# Rounding a double to an integer, and the exact remainder

The results are exact, keep the sign of the argument also where they are zero, and leave the
infinities and the undefined value alone.
-/
namespace SymbolicAlgebra.Binary64

/-- The integer next to `x` in the direction of zero. -/
def trunc (x : Float) : Float :=
  match Datum.ofFloat x with
  | .finite negative units => ofUnits negative (units - units % one)
  | _ => x

/-- The integer next to `x` away from zero, or `x` itself where it is an integer. -/
def awayFromZero (x : Float) : Float :=
  match Datum.ofFloat x with
  | .finite negative units =>
    if units % one = 0 then x else ofUnits negative (units - units % one + one)
  | _ => x

/-- The greatest integer that is not above `x`. -/
def floor (x : Float) : Float := if isSigned x then awayFromZero x else trunc x

/-- The least integer that is not below `x`. -/
def ceil (x : Float) : Float := if isSigned x then trunc x else awayFromZero x

/-- The nearest integer, a half going away from zero. One half is added in floating point before
the fraction is dropped. -/
def round (x : Float) : Float := copySign (floor (x.abs + 0.5)) x

/-- What truncation drops. -/
def fract (x : Float) : Float := x - trunc x

/-- The remainder of truncated division. It is exact and has the sign of the dividend, an infinite
divisor leaves the dividend as it is, and a zero divisor or an infinite dividend gives no value. -/
def rem (x y : Float) : Float :=
  match Datum.ofFloat x, Datum.ofFloat y with
  | .finite negative a, .finite _ b => if b = 0 then undefined else ofUnits negative (a % b)
  | .finite _ _, .infinite _ => x
  | _, _ => undefined

end SymbolicAlgebra.Binary64
