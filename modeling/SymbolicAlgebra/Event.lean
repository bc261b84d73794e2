import SymbolicAlgebra.Equation.Transposition
import SymbolicAlgebra.Expr.Canonical
import SymbolicAlgebra.Rewrite.Rule
import SymbolicAlgebra.Trace
/-!
# What is worth logging

* `Event.logLine`: the line of an event in a log.
-/
namespace SymbolicAlgebra

/-- A side of an operation. -/
inductive Side
  | left
  | right
deriving DecidableEq, Repr

/-- A question put in text and answered in text. -/
inductive Request
  | evaluate (text : String)
  | optimize (text : String)
  | isolate (text target : String)
deriving DecidableEq, Repr

inductive Event (α : Type)
  /-- An expression was read. -/
  | parsed (text : String) (tree : Expr α)
  /-- A text was read as an equation. -/
  | parsedEquation (text : String) (tree : Expr α)
  /-- A text was evaluated. -/
  | evaluated (text : String) (value : α)
  /-- A rule rewrote a node. -/
  | fired (rule : Rule)
  /-- Two monomials were combined. -/
  | merged (op : Operator) (a b merged : Monomial α)
  /-- A target monomial was moved outward from a side of an operation. -/
  | hoisted (side : Side)
  /-- A pass changed the tree. -/
  | newCycle (tree : Expr α)
  /-- A pass changed nothing. -/
  | converged (passes : Nat) (tree : Expr α)
  /-- A term was moved across an equation. -/
  | transposed (t : Transposition)
  /-- Transposing changed nothing. -/
  | settled (steps : Nat) (tree : Expr α)
  /-- A request failed. -/
  | refused (request : Request) (message : String)
deriving Repr

/-- A text in quotation marks. -/
def quoted (text : String) : String := "'" ++ text ++ "'"

/-- The request as a call. -/
def Request.text : Request → String
  | evaluate text => "evaluate(" ++ quoted text ++ ")"
  | optimize text => "optimize(" ++ quoted text ++ ")"
  | isolate text target => "optimize_equation(" ++ quoted text ++ ", " ++ quoted target ++ ")"

def Side.name : Side → String
  | left => "left"
  | right => "right"

namespace Event

variable {α : Type}

/-- How grave an event is: a refusal is for information, all else is for finding faults. -/
def level : Event α → String
  | refused _ _ => "INFO"
  | _ => "DEBUG"

/-- The part of the library that an event comes from. -/
def source : Event α → String
  | parsed _ _ | parsedEquation _ _ => "parser"
  | evaluated _ _ => "evaluator"
  | fired _ | newCycle _ | converged _ _ => "optimizer"
  | merged _ _ _ _ | hoisted _ => "monomial"
  | transposed _ | settled _ _ => "solver"
  | refused _ _ => "cas"

def message [Numeral α] : Event α → String
  | parsed text tree => "parsed " ++ quoted text ++ " -> " ++ tree.canonical
  | parsedEquation text tree => "parsed equation " ++ quoted text ++ " -> " ++ tree.canonical
  | evaluated text value => "evaluated " ++ quoted text ++ " -> " ++ Numeral.answer value
  | fired rule => rule.label
  | merged op a b m =>
    "merging monomials " ++ a.canonical ++ " " ++ op.symbol ++ " " ++ b.canonical ++ " -> "
      ++ m.canonical
  | hoisted side => "hoisting " ++ side.name
  | newCycle tree => "new cycle started: " ++ tree.canonical
  | converged passes tree =>
    "converged after " ++ toString passes ++ " passes: " ++ tree.canonical
  | transposed t => t.label
  | settled steps tree =>
    "equation settled after " ++ toString steps ++ " steps: " ++ tree.canonical
  | refused request message => request.text ++ " failed: " ++ message

/-- The line of an event in a log. -/
def logLine [Numeral α] (e : Event α) : String :=
  e.level ++ " " ++ e.source ++ ": " ++ e.message

end Event
end SymbolicAlgebra
