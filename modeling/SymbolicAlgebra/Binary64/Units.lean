/-!
# Doubles as whole multiples of the least positive double

Every finite double is a whole multiple of `2 ^ -1074`. Counted in that unit its magnitude is a
natural number, and truncation, remainder and decimal conversion are exact operations on it.

* `Datum.ofFloat`: the sign and the magnitude of a double.
* `ofUnits`: the double with a given sign and magnitude.
-/
namespace SymbolicAlgebra.Binary64

/-- A double taken apart. `finite negative units` is `± units * 2 ^ -1074`; zero has a sign. -/
inductive Datum
  | finite (negative : Bool) (units : Nat)
  | infinite (negative : Bool)
  | undefined
deriving DecidableEq, Repr

/-- The units in `1.0`. -/
def one : Nat := Nat.pow 2 1074

/-- Reads the sign, exponent and fraction fields. An exponent field of zero marks a subnormal,
which has no hidden bit; one of all ones marks the infinities and the undefined values. -/
def Datum.ofFloat (x : Float) : Datum :=
  let bits := x.toBits.toNat
  let negative := decide (Nat.pow 2 63 ≤ bits)
  let exponent := bits / Nat.pow 2 52 % Nat.pow 2 11
  let fraction := bits % Nat.pow 2 52
  if exponent = Nat.pow 2 11 - 1 then
    if fraction = 0 then .infinite negative else .undefined
  else if exponent = 0 then .finite negative fraction
  else .finite negative ((Nat.pow 2 52 + fraction) * Nat.pow 2 (exponent - 1))

/-- The exponent of the last bit of a magnitude, in units: the spacing of doubles there is
`2 ^ lastBit units` units. -/
def lastBit (units : Nat) : Nat := units.log2 - 52

/-- The double with the given sign and magnitude. The magnitude is one that a finite double has,
so nothing is rounded. -/
def ofUnits (negative : Bool) (units : Nat) : Float :=
  let sign := if negative then Nat.pow 2 63 else 0
  let magnitude :=
    if units < Nat.pow 2 52 then units
    else (lastBit units + 1) * Nat.pow 2 52 + (units / Nat.pow 2 (lastBit units) - Nat.pow 2 52)
  Float.ofBits (UInt64.ofNat (sign + magnitude))

/-- Whether a double is a finite integer. -/
def isWhole (x : Float) : Bool :=
  match Datum.ofFloat x with
  | .finite _ units => units % one == 0
  | _ => false

/-- Whether the sign bit is set. -/
def isSigned (x : Float) : Bool := decide (Nat.pow 2 63 ≤ x.toBits.toNat)

/-- The magnitude of `x` with the sign of `y`. -/
def copySign (x y : Float) : Float :=
  if isSigned x == isSigned y then x else -x

/-- An undefined double. -/
def undefined : Float := 0.0 / 0.0

end SymbolicAlgebra.Binary64
