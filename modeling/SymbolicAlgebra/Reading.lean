import SymbolicAlgebra.Expr.Basic
import SymbolicAlgebra.Token.Basic
/-!
# Reading an expression token by token

A reading holds what is still open to the left (`Frame`) and where the next token falls (`Focus`).
Every token takes one step, and a reading that no token can rescue is never reached: the error comes
at the first token that cannot follow what was read.

The steps follow this grammar, where a negation binds tighter than every operator, products and sums
group to the left and powers to the right:

* sum: product, or sum `+` product, or sum `-` product
* product: power, or product `*` power, or product `/` power, or product `%` power
* power: signed, or signed `^` power
* signed: `-` signed, or primary
* primary: a number, a constant, a call, a sum in parentheses, or a monomial
* monomial: a variable with an optional number before it and an optional exponent, which is a number
  with an optional `-`. The exponent is part of the monomial unless another `^` follows it.

The exponent of a monomial and a number that may turn out to be a coefficient are held in the focus
until the next token decides.
-/
namespace SymbolicAlgebra

variable {α : Type}

/-- What waits, to the left, for the operand being read. -/
inductive Frame (α : Type)
  /-- A negation. -/
  | minus
  /-- An operator with its left operand. -/
  | operator (lhs : Expr α) (op : Operator)
  /-- An opening parenthesis. -/
  | paren
  /-- A call with the arguments read so far. -/
  | call (name : String) (args : List (Expr α))
deriving Repr

/-- Where the next token falls. -/
inductive Focus (α : Type)
  /-- An operand must begin. -/
  | operand
  /-- The parenthesis of a call must follow. -/
  | callee (name : String)
  /-- The first argument of a call, or its closing parenthesis. -/
  | arguments (name : String)
  /-- After a number, which is a coefficient if a variable follows. -/
  | number (value : α)
  /-- After the variable of a monomial, which may have an exponent. -/
  | var (coefficient : α) (name : String)
  /-- After the `^` behind a variable. -/
  | raised (coefficient : α) (name : String)
  /-- After the `^ -` behind a variable. -/
  | raisedMinus (coefficient : α) (name : String)
  /-- After an exponent of a literal, with its sign, which may be the base of another power. -/
  | exponent (coefficient : α) (name : String) (negative : Bool) (value : α)
  /-- After a complete operand. -/
  | done (e : Expr α)
deriving Repr

/-- A reading in progress. The innermost frame comes first. -/
structure Reading (α : Type) where
  frames : List (Frame α)
  focus : Focus α
deriving Repr

namespace Reading

/-- Nothing read yet. -/
def start : Reading α := ⟨[], .operand⟩

/-- Applies the negations that wait for a primary. -/
def negated : List (Frame α) → Expr α → List (Frame α) × Expr α
  | .minus :: frames, e => negated frames (.negate e)
  | frames, e => (frames, e)

/-- Applies the operators whose right operand is complete when `next` follows. -/
def closedBefore (next : Operator) : List (Frame α) → Expr α → List (Frame α) × Expr α
  | .operator lhs op :: frames, e =>
    if op.closesBefore next then closedBefore next frames (.binary op lhs e)
    else (.operator lhs op :: frames, e)
  | frames, e => (frames, e)

/-- Applies all operators up to the innermost parenthesis. -/
def closed : List (Frame α) → Expr α → List (Frame α) × Expr α
  | .operator lhs op :: frames, e => closed frames (.binary op lhs e)
  | frames, e => (frames, e)

/-- The reading after a primary. -/
def afterPrimary (frames : List (Frame α)) (e : Expr α) : Reading α :=
  let (frames, e) := negated frames e
  ⟨frames, .done e⟩

/-- The reading after an operator that follows the operand `e`. -/
def afterOperator (frames : List (Frame α)) (e : Expr α) (op : Operator) : Reading α :=
  let (frames, e) := closedBefore op frames e
  ⟨.operator e op :: frames, .operand⟩

/-- The step at a token that follows the complete operand `e`. -/
def follow (frames : List (Frame α)) (e : Expr α) : Token → Except SyntaxError (Reading α)
  | .operator .equals => .error (Token.operator .equals).misplaced
  | .operator op => .ok (afterOperator frames e op)
  | .rightParen =>
    match closed frames e with
    | (.paren :: frames, e) => .ok (afterPrimary frames e)
    | (.call name args :: frames, e) => .ok (afterPrimary frames (.call name (args ++ [e])))
    | _ => .error Token.rightParen.misplaced
  | .comma =>
    match closed frames e with
    | (.call name args :: frames, e) => .ok ⟨.call name (args ++ [e]) :: frames, .operand⟩
    | (.paren :: _, _) => .error .missingFunctionName
    | _ => .error Token.comma.misplaced
  | t => .error t.misplaced

/-- The step at a token that follows a primary. -/
def followPrimary (frames : List (Frame α)) (e : Expr α) (t : Token) :
    Except SyntaxError (Reading α) :=
  let (frames, e) := negated frames e
  follow frames e t

variable [Scalar α] [Numeral α]

/-- The step at a token that must begin an operand. -/
def operandStep (frames : List (Frame α)) : Token → Except SyntaxError (Reading α)
  | .number lexeme => .ok ⟨frames, .number (literalValue lexeme)⟩
  | .var name => .ok ⟨frames, .var (Scalar.natural 1) name⟩
  | .constant c => .ok (afterPrimary frames (.constant c.name c.value))
  | .function name => .ok ⟨frames, .callee name⟩
  | .negation => .ok ⟨.minus :: frames, .operand⟩
  | .leftParen => .ok ⟨.paren :: frames, .operand⟩
  | t => .error (.invalidToken t.lexeme)

/-- The frames after a `^` behind a variable, once it is known that no exponent belongs to the
monomial. -/
def afterBase (frames : List (Frame α)) (coefficient : α) (name : String) : List (Frame α) :=
  let (frames, e) := negated frames (.monomial ⟨coefficient, name, Scalar.natural 1⟩)
  (afterOperator frames e .pow).frames

/-- A number with a sign. -/
def signed (negative : Bool) (value : α) : α := if negative then Scalar.neg value else value

/-- The step at a token. -/
def step (r : Reading α) (t : Token) : Except SyntaxError (Reading α) :=
  match r.focus, t with
  | .operand, t => operandStep r.frames t
  | .callee name, .leftParen => .ok ⟨r.frames, .arguments name⟩
  | .callee _, _ => .error .missingFunctionName
  | .arguments name, .rightParen => .ok (afterPrimary r.frames (.call name []))
  | .arguments name, t => operandStep (.call name [] :: r.frames) t
  | .number x, .var name => .ok ⟨r.frames, .var x name⟩
  | .number x, t => followPrimary r.frames (.number x) t
  | .var c name, .operator .pow => .ok ⟨r.frames, .raised c name⟩
  | .var c name, t => followPrimary r.frames (.monomial ⟨c, name, Scalar.natural 1⟩) t
  | .raised c name, .negation => .ok ⟨r.frames, .raisedMinus c name⟩
  | .raised c name, .number lexeme => .ok ⟨r.frames, .exponent c name false (literalValue lexeme)⟩
  | .raised c name, t => operandStep (afterBase r.frames c name) t
  | .raisedMinus c name, .number lexeme =>
    .ok ⟨r.frames, .exponent c name true (literalValue lexeme)⟩
  | .raisedMinus c name, t => operandStep (.minus :: afterBase r.frames c name) t
  | .exponent c name negative x, .operator .pow =>
    let e := if negative then Expr.negate (.number x) else .number x
    .ok (afterOperator (afterBase r.frames c name) e .pow)
  | .exponent c name negative x, t =>
    followPrimary r.frames (.monomial ⟨c, name, signed negative x⟩) t
  | .done e, t => follow r.frames e t

/-- The expression read when no token follows the primary `e`. -/
def endPrimary (frames : List (Frame α)) (e : Expr α) : Except SyntaxError (Expr α) :=
  let (frames, e) := negated frames e
  match closed frames e with
  | ([], e) => .ok e
  | _ => .error .unexpectedEnd

/-- The expression read when no token follows. -/
def finish (r : Reading α) : Except SyntaxError (Expr α) :=
  match r.focus with
  | .callee _ => .error .missingFunctionName
  | .number x => endPrimary r.frames (.number x)
  | .var c name => endPrimary r.frames (.monomial ⟨c, name, Scalar.natural 1⟩)
  | .exponent c name negative x => endPrimary r.frames (.monomial ⟨c, name, signed negative x⟩)
  | .done e => endPrimary r.frames e
  | _ => .error .unexpectedEnd

end Reading

namespace Expr

variable [Scalar α] [Numeral α]

/-- The expression that a list of tokens spells. -/
def ofTokens (ts : List Token) : Except SyntaxError (Expr α) :=
  ts.foldlM Reading.step Reading.start >>= Reading.finish

end Expr
end SymbolicAlgebra
