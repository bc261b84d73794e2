import SymbolicAlgebra.Scalar
/-!
# Functions that a call can name
-/
namespace SymbolicAlgebra

/-- Why an expression has no value. -/
inductive EvalError
  | unknownFunction (name : String)
  /-- An equation where a value is needed. -/
  | equality
  | arity (name : String) (expected actual : Nat)
  /-- A variable. -/
  | unbound (name : String)
deriving DecidableEq, Repr

namespace EvalError

def code : EvalError → Nat
  | unknownFunction _ => 2000
  | equality => 2002
  | arity _ _ _ => 2003
  | unbound _ => 2004

def message : EvalError → String
  | unknownFunction name =>
    "Syntax error: can't find function with the name '" ++ name ++ "'"
  | equality => "Equality found in evaluator"
  | arity name expected actual =>
    "Function '" ++ name ++ "' expects " ++ toString expected ++ " argument(s), got "
      ++ toString actual
  | unbound name => "Can't evaluate unbound variable '" ++ name ++ "'"

end EvalError

inductive Builtin
  | unary (f : UnaryFunction)
  | power
  | minimum
  | maximum
  /-- The mean of one or more arguments. -/
  | average
deriving DecidableEq, Repr

namespace Builtin

def ofName? : String → Option Builtin
  | "sin" => some (unary .sin)
  | "cos" => some (unary .cos)
  | "tan" => some (unary .tan)
  | "arcsin" => some (unary .arcsin)
  | "arccos" => some (unary .arccos)
  | "arctan" => some (unary .arctan)
  | "abs" => some (unary .abs)
  | "floor" => some (unary .floor)
  | "ceil" => some (unary .ceil)
  | "round" => some (unary .round)
  | "trunc" => some (unary .trunc)
  | "fract" => some (unary .fract)
  | "sqrt" => some (unary .sqrt)
  | "pow" => some power
  | "min" => some minimum
  | "max" => some maximum
  | "avg" => some average
  | _ => none

/-- The count of arguments a function takes; of an average the least count. -/
def arity : Builtin → Nat
  | unary _ => 1
  | power | minimum | maximum => 2
  | average => 1

/-- Whether a function takes the given count of arguments. -/
def accepts (b : Builtin) (count : Nat) : Bool :=
  match b with
  | average => b.arity ≤ count
  | _ => b.arity == count

/-- The function of a name, if it takes the given count of arguments. -/
def find (name : String) (count : Nat) : Except EvalError Builtin :=
  match ofName? name with
  | none => .error (.unknownFunction name)
  | some b => if b.accepts count then .ok b else .error (.arity name b.arity count)

variable {α : Type} [Elementary α]

/-- The mean: the sum taken from left to right, divided by the count. -/
def mean (xs : List α) : α :=
  Scalar.div (xs.foldl Scalar.add (Scalar.natural 0)) (Scalar.natural xs.length)

/-- The value of a function on a list of arguments of a length that it accepts. -/
def result? : Builtin → List α → Option α
  | unary f, [x] => some (Elementary.unary f x)
  | power, [x, y] => some (Scalar.pow x y)
  | minimum, [x, y] => some (Elementary.minimum x y)
  | maximum, [x, y] => some (Elementary.maximum x y)
  | average, x :: xs => some (mean (x :: xs))
  | _, _ => none

theorem isSome_result? (b : Builtin) (xs : List α) :
    (b.result? xs).isSome = b.accepts xs.length := by
  cases b <;> rcases xs with _ | ⟨x, _ | ⟨y, _ | ⟨z, zs⟩⟩⟩ <;>
    simp [result?, accepts, arity]

end Builtin
end SymbolicAlgebra
