import SymbolicAlgebra.Expr.Basic
import SymbolicAlgebra.Rewrite.Rule
/-!
# Rules at one node

Each function takes the operands of a node, already rewritten, and gives the first rule that matches
with the tree that it makes. The order of the rules matters: the identities of zero and one come
before the rules that look at the shape of the operands.
-/
namespace SymbolicAlgebra

/-- A rule that matched and what it makes of the node. -/
abbrev Match (α : Type) := Option (Rule × Expr α)

namespace Expr

variable {α : Type} [Scalar α]

/-- Two equal operands that are not both monomials. Equal monomials are combined as monomials. -/
def repeats (l r : Expr α) : Bool := l.same r && !(l.isMonomial && r.isMonomial)

def sumRule? (l r : Expr α) : Match α :=
  if l.isLiteral 0 then some (.zeroPlus, r)
  else if r.isLiteral 0 then some (.plusZero, l)
  else if l.repeats r then some (.plusSelf, .binary .mul (literal 2) l)
  else match r with
    | .negate b => some (.plusNegated, .binary .sub l b)
    | _ => none

def differenceRule? (l r : Expr α) : Match α :=
  if r.isLiteral 0 then some (.minusZero, l)
  else if l.isLiteral 0 then some (.zeroMinus, .negate r)
  else if l.same r then some (.minusSelf, literal 0)
  else match r with
    | .negate b => some (.minusNegated, .binary .add l b)
    | _ => none

def productRule? (l r : Expr α) : Match α :=
  if l.isLiteral 1 then some (.oneTimes, r)
  else if r.isLiteral 1 then some (.timesOne, l)
  else if l.isLiteral 0 then some (.zeroTimes, literal 0)
  else if r.isLiteral 0 then some (.timesZero, literal 0)
  else if l.repeats r then some (.timesSelf, .binary .pow l (literal 2))
  else match l, r with
    | .binary .pow a b, .binary .pow a' c =>
      if a.same a' then some (.timesPower, .binary .pow a (.binary .add b c)) else none
    | .number n, .binary op b c =>
      if op.isAdditive then
        some (.timesSum, .binary op (.binary .mul (.number n) b) (.binary .mul (.number n) c))
      else none
    | .number n, .monomial m =>
      some (.timesMonomial, .monomial { m with coefficient := Scalar.mul n m.coefficient })
    | _, _ => none

def quotientRule? (l r : Expr α) : Match α :=
  if r.isLiteral 1 then some (.overOne, l)
  else match l, r with
    | .monomial m, .number n =>
      some (.monomialOver, .monomial { m with coefficient := Scalar.div m.coefficient n })
    | _, _ => if l.same r then some (.overSelf, literal 1) else none

def powerRule? (l r : Expr α) : Match α :=
  if r.isLiteral 0 then some (.powerZero, literal 1)
  else if r.isLiteral 1 then some (.powerOne, l)
  else match r with
    | .negate (.number n) =>
      some (.powerNegated, .binary .div (literal 1) (.binary .pow l (.number n)))
    | _ => none

/-- The first rule of an operator that matches. Remainders and equations have no rules. -/
def binaryRule? : Operator → Expr α → Expr α → Match α
  | .add, l, r => sumRule? l r
  | .sub, l, r => differenceRule? l r
  | .mul, l, r => productRule? l r
  | .div, l, r => quotientRule? l r
  | .pow, l, r => powerRule? l r
  | .mod, _, _ | .equals, _, _ => none

/-- Rules of a negation: it cancels another one and moves inward over an operation. A sum or a
difference is negated on both sides, a product, a quotient or a remainder on the left only. -/
def negationRule? : Expr α → Match α
  | .negate e => some (.negatedNegation, e)
  | .binary op l r =>
    if op.isAdditive then some (.negatedSum, .binary op (.negate l) (.negate r))
    else if op.isMultiplicative || op == .mod then
      some (.negatedProduct, .binary op (.negate l) r)
    else none
  | _ => none

/-- Rules of a monomial: it is a number if its coefficient or its exponent is zero, and a negative
coefficient becomes a negation. -/
def monomialRule? (m : Monomial α) : Match α :=
  if Scalar.eqv m.coefficient (Scalar.natural 0) then some (.zeroCoefficient, literal 0)
  else if Scalar.eqv m.exponent (Scalar.natural 0) then some (.zeroExponent, literal 1)
  else if Scalar.isNegative m.coefficient then
    some (.negativeCoefficient,
      .negate (.monomial { m with coefficient := Scalar.neg m.coefficient }))
  else none

end Expr
end SymbolicAlgebra
