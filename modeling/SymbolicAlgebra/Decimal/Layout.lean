import SymbolicAlgebra.Decimal.Shortest
/-!
# How a decimal is laid out

A decimal is written either positionally, with a point among its digits, or with one digit before
the point and an exponent. A `Layout` says which exponents are positional and how the parts look.
-/
namespace SymbolicAlgebra

/-- The choices in writing a finite number and the three values that are not finite. -/
structure Layout where
  /-- The least exponent of the leading digit that is written positionally. -/
  least : Int
  /-- The greatest exponent of the leading digit that is written positionally. -/
  most : Int
  /-- What follows a positional number that has no fraction. -/
  whole : String
  /-- What separates digits and exponent. -/
  mark : String
  /-- The least count of exponent digits. The exponent always has a sign. -/
  exponentWidth : Nat
  infinite : String
  undefined : String

/-- Numbers that are answers: positional from `10 ^ -4` up to `10 ^ 16`, a point in every one of
them, and otherwise an exponent of at least two digits. -/
def Layout.answer : Layout :=
  { least := -4, most := 15, whole := ".0", mark := "e", exponentWidth := 2
    infinite := "inf", undefined := "nan" }

namespace Decimal

/-- The same number with no trailing zero among its digits. The fuel bounds the count of zeros
removed. -/
def trim : Nat → Decimal → Decimal
  | 0, d => d
  | fuel + 1, d =>
    if d.digits ≠ 0 ∧ d.digits % 10 = 0 then trim fuel ⟨d.digits / 10, d.exponent + 1⟩ else d

/-- The digits around a point that stands before the place `point`, which may lie outside them. -/
def positional (layout : Layout) (digits : List Char) (point : Int) : List Char :=
  if point ≤ 0 then '0' :: '.' :: List.replicate (-point).toNat '0' ++ digits
  else if (digits.length : Int) ≤ point then
    digits ++ List.replicate (point.toNat - digits.length) '0' ++ layout.whole.toList
  else digits.take point.toNat ++ '.' :: digits.drop point.toNat

/-- The sign and the digits of an exponent. -/
def exponentText (layout : Layout) (exponent : Int) : List Char :=
  let digits := Nat.toDigits 10 exponent.natAbs
  (if exponent < 0 then '-' else '+')
    :: (List.replicate (layout.exponentWidth - digits.length) '0' ++ digits)

/-- One digit, the point and the others if there are any, and the exponent. -/
def scientific (layout : Layout) (digits : List Char) (exponent : Int) : List Char :=
  digits.take 1 ++ (if digits.length ≤ 1 then [] else '.' :: digits.drop 1)
    ++ layout.mark.toList ++ exponentText layout exponent

/-- The text of a decimal. -/
def write (layout : Layout) (d : Decimal) : List Char :=
  let d := trim (width d.digits) d
  let digits := Nat.toDigits 10 d.digits
  let point := digits.length + d.exponent
  if layout.least < point ∧ point ≤ layout.most + 1 then positional layout digits point
  else scientific layout digits (point - 1)

end Decimal

namespace Binary64

/-- The text of a double, by its shortest decimal. Zero keeps its sign. -/
def write (layout : Layout) (x : Float) : String :=
  match Datum.ofFloat x with
  | .finite negative units =>
    let digits := if units = 0 then ⟨0, 0⟩ else Decimal.shortest units
    String.ofList ((if negative then ['-'] else []) ++ Decimal.write layout digits)
  | .infinite negative => if negative then "-" ++ layout.infinite else layout.infinite
  | .undefined => layout.undefined

/-- The text of a double that is an answer. -/
def answer (x : Float) : String := write Layout.answer x

/-- The text of a double inside an expression: an integer has all its digits and no point, zero has
no sign, and any other finite number is written as an answer is. -/
def text (x : Float) : String :=
  match Datum.ofFloat x with
  | .finite negative units =>
    if units % one = 0 then
      if units = 0 then "0"
      else (if negative then "-" else "") ++ toString (units / one)
    else answer x
  | .infinite negative => if negative then "-inf" else "inf"
  | .undefined => "NaN"

end Binary64
end SymbolicAlgebra
