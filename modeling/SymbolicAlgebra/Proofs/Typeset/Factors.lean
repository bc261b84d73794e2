import SymbolicAlgebra.Proofs.Typeset.Extent

/-!
# A typeset text as a row of factors

A typeset text shows no grouping but that of fractions, calls and exponents, so
outside of these it is a row of factors: each has minus signs of its own and a
sign that joins it to what stands before it. The row is read off the tree.

Results:
* `factorsInduct`: induction on a tree as a row of factors.
* `chars_factors`: the text of a tree is that of its row of factors.
* `atom_mem_subtrees`: the factors of a tree stand in it.
-/
namespace SymbolicAlgebra.Typeset

/-! ## Rows of factors -/

/-- What joins a factor to those before it. -/
inductive Join
  | plus
  | minus
  | times
  | percent
deriving DecidableEq

namespace Join

def ofOperator? : Operator → Option Join
  | .add => some plus
  | .sub => some minus
  | .mul => some times
  | .mod => some percent
  | .div | .pow | .equals => none

def chars : Join → List Char
  | plus => ['+']
  | minus => ['-']
  | times => ['\\', 'c', 'd', 'o', 't']
  | percent => ['%']

end Join

/-- A factor: what joins it to those before it, how many minus signs stand before it, and the tree
behind these. -/
structure Factor where
  join : Join
  signs : Nat
  atom : Expr Float

/-- The row of factors of a tree that stands behind a join and a number of minus signs. -/
def factors (join : Join) (signs : Nat) : Expr Float → List Factor
  | .negate e => factors join (signs + 1) e
  | .binary op l r =>
    match Join.ofOperator? op with
    | some next => factors join signs l ++ factors next 0 r
    | none => [⟨join, signs, .binary op l r⟩]
  | e => [⟨join, signs, e⟩]

/-- Whether a tree is a row of its own. -/
def isAtom : Expr Float → Bool
  | .negate _ => false
  | .binary op _ _ => (Join.ofOperator? op).isNone
  | _ => true

variable {e l r : Expr Float} {op : Operator} {join next : Join} {signs : Nat}

theorem factors_atom (h : isAtom e = true) : factors join signs e = [⟨join, signs, e⟩] := by
  cases e with
  | negate e => cases h
  | binary op l r => rw [factors, Option.isNone_iff_eq_none.mp h]
  | _ => rfl

theorem factors_joined (h : Join.ofOperator? op = some next) :
    factors join signs (.binary op l r) = factors join signs l ++ factors next 0 r := by
  rw [factors, h]

/-- Induction on a tree as a row of factors. -/
theorem factorsInduct {motive : Expr Float → Prop} (negate : ∀ e, motive e → motive (.negate e))
    (joined : ∀ op next l r, Join.ofOperator? op = some next → motive l → motive r →
      motive (.binary op l r))
    (atom : ∀ e, isAtom e = true → motive e) (e : Expr Float) : motive e := by
  induction e with
  | negate e ih => exact negate e ih
  | binary op l r ihl ihr =>
    cases hop : Join.ofOperator? op with
    | some next => exact joined op next l r hop ihl ihr
    | none => exact atom _ (by rw [isAtom, hop]; rfl)
  | number _ | call _ _ _ | monomial _ | constant _ _ => exact atom _ rfl

/-- The characters of a row of factors. -/
def chars : List Factor → List Char
  | [] => []
  | f :: fs => f.join.chars ++ (List.replicate f.signs '-' ++ (f.atom.typeset.toList ++ chars fs))

theorem chars_append (fs gs : List Factor) : chars (fs ++ gs) = chars fs ++ chars gs := by
  induction fs with
  | nil => rfl
  | cons f fs ih => simp [chars, ih]

theorem typeset_joined (h : Join.ofOperator? op = some next) :
    (Expr.binary op l r).typeset.toList = l.typeset.toList ++ (next.chars ++ r.typeset.toList) := by
  cases op <;> cases h <;> simp [Expr.typeset, Expr.typesetBinary, Operator.symbol, Join.chars]

/-- The text of a tree is that of its row of factors. -/
theorem chars_factors (e : Expr Float) (join : Join) (signs : Nat) :
    chars (factors join signs e) =
      join.chars ++ (List.replicate signs '-' ++ e.typeset.toList) := by
  induction e using factorsInduct generalizing join signs with
  | negate e ih =>
    rw [factors, ih, typeset_negate, List.replicate_succ']
    simp
  | joined op next l r hop ihl ihr =>
    rw [factors_joined hop, chars_append, ihl, ihr, typeset_joined hop]
    simp
  | atom e he => simp [factors_atom he, chars]

/-- The factors of a tree stand in it. -/
theorem atom_mem_subtrees {f : Factor} (h : f ∈ factors join signs e) :
    f.atom ∈ e.subtrees ∧ isAtom f.atom = true := by
  induction e using factorsInduct generalizing join signs with
  | negate e ih =>
    obtain ⟨hmem, hatom⟩ := ih h
    exact ⟨List.mem_cons_of_mem _ hmem, hatom⟩
  | joined op next l r hop ihl ihr =>
    rw [factors_joined hop, List.mem_append] at h
    rcases h with h | h
    · obtain ⟨hmem, hatom⟩ := ihl h
      exact ⟨List.mem_cons_of_mem _ (List.mem_append_left _ hmem), hatom⟩
    · obtain ⟨hmem, hatom⟩ := ihr h
      exact ⟨List.mem_cons_of_mem _ (List.mem_append_right _ hmem), hatom⟩
  | atom e he =>
    rw [factors_atom he] at h
    obtain rfl := List.mem_singleton.mp h
    exact ⟨e.self_mem_subtrees, he⟩

end SymbolicAlgebra.Typeset
