import SymbolicAlgebra.Binary64.Units
/-!
# Rounding a double to a count of decimal places

The exact value of the double is rounded to the decimal grid, a half going to the even neighbour,
and the decimal found is read back as a double.
-/
namespace SymbolicAlgebra.Decimal

/-- The natural number nearest to `n / d`, a half going to the even neighbour. -/
def roundDiv (n d : Nat) : Nat :=
  let q := n / d
  let twice := 2 * (n % d)
  if twice < d then q
  else if d < twice then q + 1
  else if q % 2 = 0 then q else q + 1

/-- Rounds to `places` decimal places. More than 323 places are more than any double has, and with
fewer than -308 every double rounds to zero. Zero keeps the sign of what was rounded. -/
def roundPlaces (places : Int) (x : Float) : Float :=
  match Binary64.Datum.ofFloat x with
  | .finite negative units =>
    if 323 < places then x
    else if places < -308 then Binary64.ofUnits negative 0
    else
      let rounded :=
        match places with
        | .ofNat k => Float.ofScientific (roundDiv (units * Nat.pow 10 k) Binary64.one) true k
        | .negSucc k =>
          Float.ofScientific (roundDiv units (Binary64.one * Nat.pow 10 (k + 1))) false (k + 1)
      if negative then -rounded else rounded
  | _ => x

end SymbolicAlgebra.Decimal
