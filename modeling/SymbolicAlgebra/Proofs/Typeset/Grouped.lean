import SymbolicAlgebra.Proofs.Exact.Denote
import SymbolicAlgebra.Proofs.Typeset.Factors

/-!
# The value of a row of factors

A row of factors has a value of its own, from left to right: `+` and `-` add what
has been multiplied so far to a total and begin a term, and the other joins
multiply the term or take a remainder of it. A tree need not have the value of its
row, as the text leaves out its grouping. It has if each of its nodes is grouped as
the text is read: a minus sign stands before a product, a difference takes no sum
away, the factors of a product are no sums, and a remainder is that of everything
before it in its term, by a single factor.

Results:
* `Grouped`: the trees that are grouped as their text is read.
* `run_factor`, `run_product`, `run_term`, `run_sum`: what one factor, a product, a
  term and a sum do to a row that stands before them.
* `value_of_run`: a grouped tree has the value of its row.
-/
namespace SymbolicAlgebra

open Denotes (denote)

namespace Typeset

/-! ## Grouping -/

/-- Whether a tree is a sum or a difference. -/
def isSum : Expr Float → Bool
  | .binary op _ _ => op.isAdditive
  | _ => false

/-- Whether a remainder is taken among the factors of a tree. -/
def hasRemainder : Expr Float → Bool
  | .negate e => hasRemainder e
  | .binary .mul l r => hasRemainder l || hasRemainder r
  | .binary op _ _ => op == .mod
  | _ => false

/-- Whether a tree is a single factor, behind minus signs if there are any. -/
def isFactor : Expr Float → Bool
  | .negate e => isFactor e
  | e => isAtom e

/-- Whether a node is grouped as its text is read. -/
def groupedNode : Expr Float → Bool
  | .negate e => !isSum e && !hasRemainder e
  | .binary .sub _ r => !isSum r
  | .binary .mul l r => !isSum l && !isSum r && !hasRemainder r
  | .binary .mod l r => !isSum l && isFactor r
  | _ => true

/-- Every node of a tree is grouped as its text is read. -/
def Grouped (t : Expr Float) : Prop := ∀ s ∈ t.subtrees, groupedNode s = true

/-! ## Rows -/

/-- A row of factors as far as it is read: the total of the terms before the last one, the sign of
the last one, and the term itself. -/
structure Row (K : Type) where
  total : K
  sign : K
  term : K

variable {K : Type} [Field K] [LinearOrder K] [PartialPower K]

namespace Row

/-- The row without factors. -/
def empty : Row K := ⟨0, 1, 0⟩

def sum (σ : Row K) : K := σ.total + σ.sign * σ.term

/-- The row that a join leaves its factor to. A `+` or a `-` begins a term. -/
def enter (σ : Row K) : Join → Row K
  | .plus => ⟨σ.sum, 1, 1⟩
  | .minus => ⟨σ.sum, -1, 1⟩
  | .times | .percent => σ

/-- The row with one more factor. -/
def take (I : Interpretation K) (σ : Row K) (join : Join) (y : K) : Option (Row K) :=
  let σ := σ.enter join
  let term := if join = .percent then I.remainder? σ.term y else some (σ.term * y)
  term.map fun t => { σ with term := t }

end Row

variable [FloorRing K] [Denotes Float K]

/-- Reads one factor. -/
def step (I : Interpretation K) (σ : Row K) (f : Factor) : Option (Row K) := do
  let y ← I.value (f.atom.map denote)
  σ.take I f.join ((-1) ^ f.signs * y)

/-- Reads a row of factors. -/
def run (I : Interpretation K) (fs : List Factor) (σ : Row K) : Option (Row K) :=
  fs.foldlM (step I) σ

variable {I : Interpretation K} {e l r : Expr Float} {σ : Row K} {join : Join} {signs : Nat} {v : K}

theorem run_append {fs gs : List Factor} : run I (fs ++ gs) σ = (run I fs σ).bind (run I gs) :=
  List.foldlM_append

theorem run_singleton {f : Factor} : run I [f] σ = step I σ f := by
  simp [run]

/-! ## Single factors and products -/

theorem grouped_negate :
    Grouped (.negate e) ↔ (isSum e = false ∧ hasRemainder e = false) ∧ Grouped e := by
  simp [Grouped, Expr.forall_subtrees_negate, groupedNode]

theorem grouped_binary {op : Operator} :
    Grouped (.binary op l r) ↔ groupedNode (.binary op l r) = true ∧ Grouped l ∧ Grouped r :=
  Expr.forall_subtrees_binary

theorem run_atom (h : isAtom e = true) (hv : I.value (e.map denote) = some v) :
    run I (factors join signs e) σ = σ.take I join ((-1) ^ signs * v) := by
  rw [factors_atom h, run_singleton, step, hv]
  rfl

/-- What a single factor does to the row before it. -/
theorem run_factor (h : isFactor e = true) (hv : I.value (e.map denote) = some v) :
    run I (factors join signs e) σ = σ.take I join ((-1) ^ signs * v) := by
  induction e using factorsInduct generalizing signs v with
  | negate e ih =>
    obtain ⟨u, hu, rfl⟩ := Interpretation.value_negate.mp hv
    rw [factors, ih h hu, pow_succ, mul_assoc, neg_one_mul]
  | joined op next l r hop =>
    have hnone : (Join.ofOperator? op).isNone = true := h
    rw [hop] at hnone
    cases hnone
  | atom e he => exact run_atom he hv

omit [LinearOrder K] [PartialPower K] [FloorRing K] [Denotes Float K] in
theorem take_of_ne {y : K} (h : join ≠ .percent) :
    σ.take I join y = some { σ.enter join with term := (σ.enter join).term * y } := by
  simp [Row.take, h]

/-- What a product does to the row before it. -/
theorem run_product (hgrouped : Grouped e) (hsum : isSum e = false)
    (hrem : hasRemainder e = false) (hjoin : join ≠ .percent)
    (hv : I.value (e.map denote) = some v) :
    run I (factors join signs e) σ =
      some { σ.enter join with term := (σ.enter join).term * ((-1) ^ signs * v) } := by
  induction e using factorsInduct generalizing join signs v σ with
  | negate e ih =>
    obtain ⟨⟨hsum, hrem⟩, hgrouped⟩ := grouped_negate.mp hgrouped
    obtain ⟨u, hu, rfl⟩ := Interpretation.value_negate.mp hv
    rw [factors, ih hgrouped hsum hrem hjoin hu, pow_succ, mul_assoc _ (-1), neg_one_mul]
  | joined op next l r hop ihl ihr =>
    obtain ⟨hnode, hl, hr⟩ := grouped_binary.mp hgrouped
    cases op with
    | add | sub => cases hsum
    | mod => cases hrem
    | div | pow | equals => cases hop
    | mul =>
      obtain ⟨a, b, ha, hb, rfl⟩ := Interpretation.value_mul.mp hv
      simp only [groupedNode, Bool.and_eq_true, Bool.not_eq_true'] at hnode
      simp only [hasRemainder, Bool.or_eq_false_iff] at hrem
      cases hop
      rw [factors_joined rfl, run_append, ihl hl hnode.1.1 hrem.1 hjoin ha, Option.bind_some,
        ihr hr hnode.1.2 hrem.2 (by decide) hb]
      simp [Row.enter, mul_assoc]
  | atom e he => rw [run_atom he hv, take_of_ne hjoin]

/-! ## Terms and sums -/

/-- What a term does to the row before it, if it is added or taken away. -/
theorem run_term (hgrouped : Grouped e) (hsum : isSum e = false)
    (hjoin : (σ.enter join).term = 1 ∧ join ≠ .percent) (hv : I.value (e.map denote) = some v) :
    run I (factors join 0 e) σ = some { σ.enter join with term := v } := by
  induction e using factorsInduct generalizing v with
  | negate e =>
    have hrem := (grouped_negate.mp hgrouped).1.2
    rw [run_product hgrouped hsum hrem hjoin.2 hv, hjoin.1, pow_zero, one_mul, one_mul]
  | joined op next l r hop ihl ihr =>
    obtain ⟨hnode, hl, hr⟩ := grouped_binary.mp hgrouped
    cases op with
    | add | sub => cases hsum
    | div | pow | equals => cases hop
    | mul =>
      obtain ⟨a, b, ha, hb, rfl⟩ := Interpretation.value_mul.mp hv
      simp only [groupedNode, Bool.and_eq_true, Bool.not_eq_true'] at hnode
      cases hop
      rw [factors_joined rfl, run_append, ihl hl hnode.1.1 ha, Option.bind_some,
        run_product hr hnode.1.2 hnode.2 (by decide) hb]
      simp [Row.enter]
    | mod =>
      obtain ⟨a, b, ha, hb, hop'⟩ := Interpretation.value_binary.mp hv
      simp only [groupedNode, Bool.and_eq_true, Bool.not_eq_true'] at hnode
      cases hop
      have hrem : I.remainder? a b = some v := hop'
      rw [factors_joined rfl, run_append, ihl hl hnode.1 ha, Option.bind_some,
        run_factor hnode.2 hb]
      simp [Row.take, Row.enter, hrem]
  | atom e he => rw [run_atom he hv, take_of_ne hjoin.2, hjoin.1, pow_zero, one_mul, one_mul]

/-- A term that is added to a row is added to its sum. -/
theorem exists_run_term (hgrouped : Grouped e) (hsum : isSum e = false)
    (hv : I.value (e.map denote) = some v) :
    ∃ τ, run I (factors .plus 0 e) σ = some τ ∧ τ.sum = σ.sum + v := by
  refine ⟨_, run_term hgrouped hsum ⟨rfl, by decide⟩ hv, ?_⟩
  simp [Row.sum, Row.enter]

theorem isSum_of_isAtom (h : isAtom e = true) : isSum e = false := by
  cases e with
  | binary op l r =>
    cases op with
    | add | sub => cases h
    | _ => rfl
  | _ => rfl

/-- A tree that is added to a row is added to its sum. -/
theorem run_sum (hgrouped : Grouped e) (hv : I.value (e.map denote) = some v) :
    ∃ τ, run I (factors .plus 0 e) σ = some τ ∧ τ.sum = σ.sum + v := by
  induction e using factorsInduct generalizing v σ with
  | negate e => exact exists_run_term hgrouped rfl hv
  | joined op next l r hop ihl ihr =>
    obtain ⟨hnode, hl, hr⟩ := grouped_binary.mp hgrouped
    cases op with
    | mul | mod => exact exists_run_term hgrouped rfl hv
    | div | pow | equals => cases hop
    | add =>
      obtain ⟨a, b, ha, hb, rfl⟩ := Interpretation.value_add.mp hv
      cases hop
      obtain ⟨τ, hτ, hsum⟩ := ihl hl ha
      obtain ⟨ρ, hρ, hsum'⟩ := ihr hr hb
      exact ⟨ρ, by rw [factors_joined rfl, run_append, hτ, Option.bind_some, hρ],
        by rw [hsum', hsum, add_assoc]⟩
    | sub =>
      obtain ⟨a, b, ha, hb, rfl⟩ := Interpretation.value_sub.mp hv
      cases hop
      obtain ⟨τ, hτ, hsum⟩ := ihl hl ha
      have hnosum : isSum r = false := by simpa [groupedNode] using hnode
      have hρ : run I (factors .minus 0 r) τ = some ⟨τ.sum, -1, b⟩ :=
        run_term hr hnosum ⟨rfl, by decide⟩ hb
      refine ⟨_, by rw [factors_joined rfl, run_append, hτ, Option.bind_some, hρ], ?_⟩
      show τ.sum + -1 * b = σ.sum + (a - b)
      rw [hsum]
      ring
  | atom e he => exact exists_run_term hgrouped (isSum_of_isAtom he) hv

/-- A grouped tree has the value of its row. -/
theorem value_of_run (hgrouped : Grouped e) (hv : I.value (e.map denote) = some v) :
    ∃ τ, run I (factors .plus 0 e) .empty = some τ ∧ τ.sum = v := by
  obtain ⟨τ, hτ, hsum⟩ := run_sum hgrouped hv
  exact ⟨τ, hτ, by simpa [Row.sum, Row.empty] using hsum⟩

end Typeset
end SymbolicAlgebra
