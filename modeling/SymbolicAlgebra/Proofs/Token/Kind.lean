import SymbolicAlgebra.Token.Scan

/-!
# Where operands begin and end

Some tokens can be the last of an operand, some can be its first, and behind some
an operand has to begin. Which ones is said here kind by kind, apart from the
tests that a scan makes.

Results:
* `endsOperand_iff`, `startsOperand_iff`, `expectsOperand_some`: the tests agree with the kinds.
-/
namespace SymbolicAlgebra.Token

variable {t : Token}

/-- An operand can end with a token of this kind. -/
inductive EndsOperand : Token → Prop
  | number (lexeme : String) : EndsOperand (.number lexeme)
  | var (name : String) : EndsOperand (.var name)
  | constant (c : NamedConstant) : EndsOperand (.constant c)
  | rightParen : EndsOperand .rightParen

/-- An operand can begin with a token of this kind, a negation apart. -/
inductive BeginsOperand : Token → Prop
  | number (lexeme : String) : BeginsOperand (.number lexeme)
  | var (name : String) : BeginsOperand (.var name)
  | constant (c : NamedConstant) : BeginsOperand (.constant c)
  | function (name : String) : BeginsOperand (.function name)
  | leftParen : BeginsOperand .leftParen

/-- Behind a token of this kind an operand must begin: an operator, an opening parenthesis, a comma
or another negation. -/
inductive AwaitsOperand : Token → Prop
  | operator (op : Operator) : AwaitsOperand (.operator op)
  | leftParen : AwaitsOperand .leftParen
  | comma : AwaitsOperand .comma
  | negation : AwaitsOperand .negation

theorem endsOperand_iff : t.endsOperand = true ↔ EndsOperand t := by
  constructor
  · intro h
    cases t with
    | number lexeme => exact .number lexeme
    | var name => exact .var name
    | constant c => exact .constant c
    | rightParen => exact .rightParen
    | _ => cases h
  · intro h
    cases h <;> rfl

theorem startsOperand_iff : t.startsOperand = true ↔ BeginsOperand t := by
  constructor
  · intro h
    cases t with
    | number lexeme => exact .number lexeme
    | var name => exact .var name
    | constant c => exact .constant c
    | function name => exact .function name
    | leftParen => exact .leftParen
    | _ => cases h
  · intro h
    cases h <;> rfl

theorem expectsOperand_some : expectsOperand (some t) = true ↔ AwaitsOperand t := by
  constructor
  · intro h
    cases t with
    | operator op => exact .operator op
    | leftParen => exact .leftParen
    | comma => exact .comma
    | negation => exact .negation
    | _ => cases h
  · intro h
    cases h <;> rfl

end SymbolicAlgebra.Token
