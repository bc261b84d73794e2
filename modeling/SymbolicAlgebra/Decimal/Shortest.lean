import SymbolicAlgebra.Binary64.Units
/-!
# The shortest decimal that reads back as a double

A decimal reads back as a double when it lies in the interval of reals that round to that double.
The ends of the interval are halfway to the neighbouring doubles, and they belong to it exactly
when the last bit of the significand is zero.

For one digit, two digits and so on up to seventeen, the two points of the decimal grid around the
value are tried. The first grid with a point in the interval wins; of two such points the nearer is
taken, and of two equally near the one with the even last digit. Seventeen digits always suffice.

All quantities are natural numbers: a real is counted in units of `2 ^ -1076 * 10 ^ -340`, fine
enough for the interval ends and for every grid.
-/
namespace SymbolicAlgebra

/-- The number `digits * 10 ^ exponent`. -/
structure Decimal where
  digits : Nat
  exponent : Int
deriving DecidableEq, Repr

namespace Decimal

/-- The count of decimal digits of a positive number, and of zero the count one. -/
def width (n : Nat) : Nat := (Nat.toDigits 10 n).length

/-- The place of the leading digit of `units * 2 ^ -1074`, counted from `10 ^ -324`, which is where
the least double begins. -/
def lead (units : Nat) : Nat := width (units * Nat.pow 10 324 / Binary64.one) - 1

/-- The reals that round to one double. -/
structure Interval where
  value : Nat
  /-- How far the interval reaches below the value. -/
  below : Nat
  /-- How far the interval reaches above the value. -/
  above : Nat
  /-- Whether the two ends belong to the interval. -/
  closed : Bool
deriving DecidableEq, Repr

/-- The interval of a positive magnitude. Where the significand is the least of its binade the
neighbour below is only half as far away as the one above. -/
def Interval.ofUnits (units : Nat) : Interval :=
  let spacing := Nat.pow 2 (Binary64.lastBit units)
  let significand := units / spacing
  { value := 4 * units * Nat.pow 10 340
    below :=
      (if significand = Nat.pow 2 52 ∧ 1 < spacing then 1 else 2) * spacing * Nat.pow 10 340
    above := 2 * spacing * Nat.pow 10 340
    closed := significand % 2 = 0 }

def Interval.contains (i : Interval) (x : Nat) : Bool :=
  if i.closed then i.value ≤ x + i.below && x ≤ i.value + i.above
  else i.value < x + i.below && x < i.value + i.above

/-- The point of a grid of the given step that reads back, if there is one, as a multiple of the
step. -/
def Interval.onGrid? (i : Interval) (step : Nat) : Option Nat :=
  let low := i.value / step
  let high := low + 1
  match i.contains (low * step), i.contains (high * step) with
  | false, false => none
  | true, false => some low
  | false, true => some high
  | true, true =>
    let down := i.value - low * step
    let up := high * step - i.value
    if down < up then some low
    else if up < down then some high
    else if low % 2 = 0 then some low else some high

/-- The shortest decimal that reads back as the double of the given positive magnitude. Were no
grid to hold one, the exact value would be taken. -/
def shortest (units : Nat) : Decimal :=
  let interval := Interval.ofUnits units
  let place := lead units
  let ofSize (fewer : Nat) : Option Decimal :=
    let fine := place + 16 - fewer
    (interval.onGrid? (Nat.pow 10 fine * Nat.pow 2 1076)).map fun digits =>
      ⟨digits, (fine : Int) - 340⟩
  ((List.range 17).findSome? ofSize).getD ⟨units * Nat.pow 5 1074, -1074⟩

end Decimal
end SymbolicAlgebra
