/-!
# Why a text is not an expression
-/
namespace SymbolicAlgebra

inductive SyntaxError
  /-- A parenthesis holds a list, or a function name has no parenthesis. -/
  | missingFunctionName
  /-- An equation was asked for and the text has no equals sign. -/
  | missingEquals
  /-- More than one equals sign. -/
  | repeatedEquals (count : Nat)
  /-- A character or a token that cannot stand where it does. -/
  | invalidToken (text : String)
  /-- The text ends where something must follow. -/
  | unexpectedEnd
  /-- An operand where an operator is needed. -/
  | invalidOperator (text : String)
  /-- A word that names no constant and is not called. -/
  | unknownConstant (name : String)
deriving DecidableEq, Repr

namespace SyntaxError

def code : SyntaxError → Nat
  | missingFunctionName => 1000
  | missingEquals => 1001
  | repeatedEquals _ => 1002
  | invalidToken _ | unexpectedEnd => 1003
  | invalidOperator _ => 1004
  | unknownConstant _ => 1005

/-- What is reported in place of a token where the text ends. -/
def endOfInput : String := "end of input"

def message : SyntaxError → String
  | missingFunctionName => "Syntax error: no name found for function"
  | missingEquals => "Syntax error: no equals sign found '='"
  | repeatedEquals _ => "Syntax error: too many equals signs"
  | invalidToken text => "Syntax error: invalid token '" ++ text ++ "'"
  | unexpectedEnd => "Syntax error: invalid token '" ++ endOfInput ++ "'"
  | invalidOperator text => "Syntax error: invalid operator '" ++ text ++ "'"
  | unknownConstant name => "Syntax error: unknown constant '" ++ name ++ "'"

end SyntaxError
end SymbolicAlgebra
