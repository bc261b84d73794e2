import SymbolicAlgebra.Scalar
/-!
# Named constants

Names are matched exactly, so lower case letters stay variables.
-/
namespace SymbolicAlgebra

inductive NamedConstant
  | pi
  | tau
  | e
  | phi
deriving DecidableEq, Repr

namespace NamedConstant

def name : NamedConstant → String
  | pi => "PI"
  | tau => "TAU"
  | e => "E"
  | phi => "PHI"

/-- The constant of a name. -/
def ofName? : String → Option NamedConstant
  | "PI" => some pi
  | "TAU" => some tau
  | "E" => some e
  | "PHI" => some phi
  | _ => none

/-- The value to sixteen digits. -/
def value {α : Type} [Numeral α] : NamedConstant → α
  | pi => Numeral.ofDecimal 3141592653589793 15
  | tau => Numeral.ofDecimal 6283185307179586 15
  | e => Numeral.ofDecimal 2718281828459045 15
  | phi => Numeral.ofDecimal 1618033988749895 15

theorem ofName?_name (c : NamedConstant) : ofName? c.name = some c := by cases c <;> rfl

theorem name_of_ofName? {s : String} {c : NamedConstant} (h : ofName? s = some c) :
    c.name = s := by
  unfold ofName? at h
  split at h <;> first | contradiction | (cases h; rfl)

end NamedConstant
end SymbolicAlgebra
