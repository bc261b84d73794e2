/-!
# Names of the rewrite rules
-/
namespace SymbolicAlgebra

/-- The rules that rewrite a node by its operator and the shape of its operands. -/
inductive Rule
  | zeroPlus
  | plusZero
  | plusSelf
  | plusNegated
  | minusZero
  | zeroMinus
  | minusSelf
  | minusNegated
  | oneTimes
  | timesOne
  | zeroTimes
  | timesZero
  | timesSelf
  | timesPower
  | timesSum
  | timesMonomial
  | overOne
  | monomialOver
  | overSelf
  | powerZero
  | powerOne
  | powerNegated
  | zeroCoefficient
  | zeroExponent
  | negativeCoefficient
  | negatedNegation
  | negatedSum
  | negatedProduct
deriving DecidableEq, Repr

/-- The rule as a schema, which is how a log names it. -/
def Rule.label : Rule → String
  | zeroPlus => "0+a=a"
  | plusZero => "a+0=a"
  | plusSelf => "a+a=2a"
  | plusNegated => "a+(-b)=a-b"
  | minusZero => "a-0=a"
  | zeroMinus => "0-a=-a"
  | minusSelf => "a-a=0"
  | minusNegated => "a-(-b)=a+b"
  | oneTimes => "1*a=a"
  | timesOne => "a*1=a"
  | zeroTimes => "0*a=0"
  | timesZero => "a*0=0"
  | timesSelf => "a*a=a^2"
  | timesPower => "a^b*a^c=a^(b+c)"
  | timesSum => "n*(b<op>c)=n*b<op>n*c"
  | timesMonomial => "n*bX^c=(n*b)X^c"
  | overOne => "a/1=a"
  | monomialOver => "bX^c/n=(b/n)X^c"
  | overSelf => "a/a=1"
  | powerZero => "a^0=1"
  | powerOne => "a^1=a"
  | powerNegated => "a^(-n)=1/a^n"
  | zeroCoefficient => "collapsing monomial due to coefficient"
  | zeroExponent => "collapsing monomial due to exponent"
  | negativeCoefficient => "applying unary to coefficient"
  | negatedNegation => "--a=a"
  | negatedSum => "-(a<op>b)=-a<op>-b"
  | negatedProduct => "-(a<op>b)=-a<op>b"

end SymbolicAlgebra
