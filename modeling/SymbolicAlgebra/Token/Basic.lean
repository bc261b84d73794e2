import SymbolicAlgebra.NamedConstant
import SymbolicAlgebra.Operator
import SymbolicAlgebra.SyntaxError
/-!
# Tokens
-/
namespace SymbolicAlgebra

inductive Token
  /-- A literal, as written: digits, and a point with more digits if it has a fraction. -/
  | number (lexeme : String)
  /-- A variable, which is a single letter. -/
  | var (name : String)
  | constant (c : NamedConstant)
  /-- A word before a parenthesis. -/
  | function (name : String)
  /-- A minus sign that has no left operand. -/
  | negation
  | operator (op : Operator)
  | leftParen
  | rightParen
  | comma
deriving DecidableEq, Repr

namespace Token

/-- The text of a token. -/
def lexeme : Token → String
  | number s => s
  | var name => name
  | constant c => c.name
  | function name => name
  | negation => "-"
  | operator op => op.symbol
  | leftParen => "("
  | rightParen => ")"
  | comma => ","

/-- Whether an operand can end with the token. -/
def endsOperand : Token → Bool
  | number _ | var _ | constant _ | rightParen => true
  | _ => false

/-- Whether an operand can begin with the token, a negation apart. -/
def startsOperand : Token → Bool
  | number _ | var _ | constant _ | function _ | leftParen => true
  | _ => false

/-- Whether a product is meant between two tokens that stand side by side. A number before a
variable is its coefficient, and a number after a number is left to be refused. -/
def multiplies (left right : Token) : Bool :=
  match left, right with
  | number _, number _ => false
  | number _, var _ => false
  | _, _ => left.endsOperand && right.startsOperand

/-- The error at a token that cannot follow a complete operand. -/
def misplaced (t : Token) : SyntaxError :=
  if t.startsOperand then .invalidOperator t.lexeme else .invalidToken t.lexeme

end Token

/-- The digits of a literal as one number, and the count of those after the point. -/
def literalDigits (lexeme : List Char) : Nat × Nat :=
  let whole := lexeme.takeWhile (· != '.')
  let fraction := (lexeme.dropWhile (· != '.')).drop 1
  ((whole ++ fraction).foldl (fun n c => 10 * n + (c.toNat - '0'.toNat)) 0, fraction.length)

/-- The number that a literal stands for. -/
def literalValue {α : Type} [Numeral α] (lexeme : String) : α :=
  let (digits, places) := literalDigits lexeme.toList
  Numeral.ofDecimal digits places

/-- The number that a token carries, if it is a literal or a constant. -/
def Token.value? {α : Type} [Numeral α] : Token → Option α
  | number lexeme => some (literalValue lexeme)
  | constant c => some c.value
  | _ => none

end SymbolicAlgebra
