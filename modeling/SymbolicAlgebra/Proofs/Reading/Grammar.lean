import SymbolicAlgebra.Reading

/-!
# The grammar of expressions

`Derives p ts e rest` says that the tokens `ts` are a phrase of kind `p` that
spells the tree `e`, with the tokens `rest` behind it. What stands behind
matters in two places: a number is a coefficient if a variable follows it, and
a `^` with a literal behind a variable is the exponent of the monomial unless
another `^` follows.

Sums and products group to the left, powers to the right, and a negation binds
tighter than every operator. The operators of a sum and of a product and the
sign of an exponent are spelled out, apart from the ranks and the signs that a
reading goes by.

Results:
* `Operator.rank_eq_one_iff`, `Operator.rank_eq_two_iff`: the ranks of operators
  agree with the grammar.
-/
namespace SymbolicAlgebra

/-- The kinds of phrases. -/
inductive Phrase
  | sum
  | product
  | power
  | signed
  | primary
  | monomial
  /-- A call without its closing parenthesis. -/
  | call
deriving DecidableEq, Repr

/-- The operators between the operands of a sum. -/
inductive Operator.Adds : Operator → Prop
  | add : Adds .add
  | sub : Adds .sub

/-- The operators between the operands of a product. -/
inductive Operator.Multiplies : Operator → Prop
  | mul : Multiplies .mul
  | div : Multiplies .div
  | mod : Multiplies .mod

theorem Operator.rank_eq_one_iff {op : Operator} : op.rank = 1 ↔ op.Adds := by
  constructor
  · intro h
    cases op with
    | add => exact .add
    | sub => exact .sub
    | _ => cases h
  · intro h
    cases h <;> rfl

theorem Operator.rank_eq_two_iff {op : Operator} : op.rank = 2 ↔ op.Multiplies := by
  constructor
  · intro h
    cases op with
    | mul => exact .mul
    | div => exact .div
    | mod => exact .mod
    | _ => cases h
  · intro h
    cases h <;> rfl

theorem Operator.Adds.ne_equals {op : Operator} (h : op.Adds) : op ≠ .equals := by
  rintro rfl
  cases h

theorem Operator.Multiplies.ne_equals {op : Operator} (h : op.Multiplies) : op ≠ .equals := by
  rintro rfl
  cases h

variable {α : Type} [Scalar α] [Numeral α]

/-- The number before a variable. It is one where none is written. -/
inductive Coefficient : List Token → α → Prop
  | one : Coefficient [] (Scalar.natural 1)
  | number (lexeme : String) : Coefficient [.number lexeme] (literalValue lexeme)

/-- A `^` with a literal, which may have a sign, that belongs to the variable before it. -/
inductive Exponent : List Token → (negative : Bool) → (lexeme : String) → List Token → Prop
  | positive {lexeme rest} : (∀ after, rest ≠ .operator .pow :: after) →
      Exponent [.operator .pow, .number lexeme] false lexeme rest
  | negative {lexeme rest} : (∀ after, rest ≠ .operator .pow :: after) →
      Exponent [.operator .pow, .negation, .number lexeme] true lexeme rest

/-- The number that an exponent is. A minus sign negates the literal. -/
def exponentValue : (negative : Bool) → (lexeme : String) → α
  | false, lexeme => literalValue lexeme
  | true, lexeme => Scalar.neg (literalValue lexeme)

/-- Whether tokens begin with an exponent of the variable before them. -/
def Raises (ts : List Token) : Prop :=
  ∃ us negative lexeme rest, Exponent us negative lexeme rest ∧ ts = us ++ rest

/-- The tokens of a phrase, the tree that it spells and the tokens behind it. -/
inductive Derives : Phrase → List Token → Expr α → List Token → Prop
  /-- A sum is a product. -/
  | product {ts e rest} : Derives .product ts e rest → Derives .sum ts e rest
  /-- A sum is a sum, `+` or `-`, and a product. -/
  | additive {op ls l rs r rest} : op.Adds → Derives .sum ls l (.operator op :: (rs ++ rest)) →
      Derives .product rs r rest →
      Derives .sum (ls ++ .operator op :: rs) (.binary op l r) rest
  /-- A product is a power. -/
  | power {ts e rest} : Derives .power ts e rest → Derives .product ts e rest
  /-- A product is a product, `*`, `/` or `%`, and a power. -/
  | multiplicative {op ls l rs r rest} : op.Multiplies →
      Derives .product ls l (.operator op :: (rs ++ rest)) → Derives .power rs r rest →
      Derives .product (ls ++ .operator op :: rs) (.binary op l r) rest
  /-- A power is a signed primary. -/
  | signed {ts e rest} : Derives .signed ts e rest → Derives .power ts e rest
  /-- A power is a signed primary, `^` and a power. -/
  | raised {ls l rs r rest} : Derives .signed ls l (.operator .pow :: (rs ++ rest)) →
      Derives .power rs r rest →
      Derives .power (ls ++ .operator .pow :: rs) (.binary .pow l r) rest
  | primary {ts e rest} : Derives .primary ts e rest → Derives .signed ts e rest
  | negated {ts e rest} : Derives .signed ts e rest →
      Derives .signed (.negation :: ts) (.negate e) rest
  /-- A number stands alone only if no variable follows. -/
  | number (lexeme : String) {rest} : (∀ name after, rest ≠ .var name :: after) →
      Derives .primary [.number lexeme] (.number (literalValue lexeme)) rest
  | constant (c : NamedConstant) {rest} :
      Derives .primary [.constant c] (.constant c.name c.value) rest
  | monomial {ts e rest} : Derives .monomial ts e rest → Derives .primary ts e rest
  | parenthesized {ts e rest} : Derives .sum ts e (.rightParen :: rest) →
      Derives .primary (.leftParen :: (ts ++ [.rightParen])) e rest
  | emptyCall (name : String) {rest} :
      Derives .primary [.function name, .leftParen, .rightParen] (.call name []) rest
  | closedCall {ts e rest} : Derives .call ts e (.rightParen :: rest) →
      Derives .primary (ts ++ [.rightParen]) e rest
  | firstArgument (name : String) {ts e rest} : Derives .sum ts e rest →
      Derives .call (.function name :: .leftParen :: ts) (.call name [e]) rest
  | nextArgument {name args ts us e rest} :
      Derives .call ts (.call name args) (.comma :: (us ++ rest)) → Derives .sum us e rest →
      Derives .call (ts ++ .comma :: us) (.call name (args ++ [e])) rest
  /-- The exponent of a variable is one where none follows. -/
  | variable {cs} {c : α} {name rest} : Coefficient cs c → ¬ Raises rest →
      Derives .monomial (cs ++ [.var name]) (.monomial ⟨c, name, Scalar.natural 1⟩) rest
  | variablePower {cs} {c : α} {name us negative lexeme rest} : Coefficient cs c →
      Exponent us negative lexeme rest →
      Derives .monomial (cs ++ .var name :: us)
        (.monomial ⟨c, name, exponentValue negative lexeme⟩) rest

end SymbolicAlgebra
