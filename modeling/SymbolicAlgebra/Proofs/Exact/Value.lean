import SymbolicAlgebra.Proofs.Exact.Number
import SymbolicAlgebra.Proofs.Rewrite.Steps

/-!
# The exact value of a tree

An `Interpretation` gives the variables values, the function names partial
functions, and `%` a partial operation. A tree then has a value or none: it has
none where some part of it has none, where it divides by zero, and where it is
an equation.

Results:
* `value_binary` and its like: when a tree has a given value.
* `values_replace`: an operand of a call may be replaced by one of equal value.
* `Tame`: the trees that the rules keep the value of.
* `Preserves.within`: what keeps values at the root keeps them everywhere.
-/
namespace SymbolicAlgebra

/-- The meaning of names. -/
structure Interpretation (K : Type) where
  /-- The values of the variables. -/
  assignment : String → K
  function : String → List K → Option K
  remainder? : K → K → Option K

namespace Interpretation

variable {K : Type} [Field K] [LinearOrder K] [PartialPower K] (I : Interpretation K)

/-- `coefficient * var ^ exponent`. -/
def monomial (m : Monomial (Exact K)) : Option K := do
  let c ← m.coefficient.get?
  let x ← m.exponent.get?
  let p ← PartialPower.power? (I.assignment m.var) x
  return c * p

mutual

/-- The value of a tree, if it has one. -/
def value : Expr (Exact K) → Option K
  | .number x => x.get?
  | .constant _ x => x.get?
  | .monomial m => I.monomial m
  | .negate e => do
    let a ← value e
    return -a
  | .binary op l r => do
    let a ← value l
    let b ← value r
    op.meaning? I.remainder? a b
  | .call name args => do
    let as ← values args
    I.function name as

/-- The values of a list of trees. -/
def values : List (Expr (Exact K)) → Option (List K)
  | [] => some []
  | e :: es => do
    let a ← value e
    let as ← values es
    return a :: as

end

variable {I} {e l r : Expr (Exact K)} {v : K}

/-! ## When a tree has a value -/

@[simp] theorem value_number {x : Exact K} : I.value (.number x) = x.get? := by rw [value]

@[simp] theorem value_literal [FloorRing K] {n : Nat} :
    I.value (Expr.literal n) = some (n : K) := by
  rw [Expr.literal, value_number]; rfl

theorem value_negate : I.value (.negate e) = some v ↔ ∃ a, I.value e = some a ∧ -a = v := by
  simp [value, Option.bind_eq_some_iff]

theorem value_binary {op : Operator} : I.value (.binary op l r) = some v ↔
    ∃ a b, I.value l = some a ∧ I.value r = some b ∧ op.meaning? I.remainder? a b = some v := by
  simp [value, Option.bind_eq_some_iff]

theorem value_add : I.value (.binary .add l r) = some v ↔
    ∃ a b, I.value l = some a ∧ I.value r = some b ∧ a + b = v := by
  simp [value_binary, Operator.meaning?]

theorem value_sub : I.value (.binary .sub l r) = some v ↔
    ∃ a b, I.value l = some a ∧ I.value r = some b ∧ a - b = v := by
  simp [value_binary, Operator.meaning?]

theorem value_mul : I.value (.binary .mul l r) = some v ↔
    ∃ a b, I.value l = some a ∧ I.value r = some b ∧ a * b = v := by
  simp [value_binary, Operator.meaning?]

theorem value_div : I.value (.binary .div l r) = some v ↔
    ∃ a b, I.value l = some a ∧ I.value r = some b ∧ b ≠ 0 ∧ a / b = v := by
  simp [value_binary, Operator.meaning?, Exact.divide?]

theorem value_pow : I.value (.binary .pow l r) = some v ↔
    ∃ a b, I.value l = some a ∧ I.value r = some b ∧ PartialPower.power? a b = some v := by
  simp [value_binary, Operator.meaning?]

theorem value_monomial {m : Monomial (Exact K)} : I.value (.monomial m) = some v ↔
    ∃ c x p, m.coefficient.get? = some c ∧ m.exponent.get? = some x ∧
      PartialPower.power? (I.assignment m.var) x = some p ∧ c * p = v := by
  simp [value, monomial, Option.bind_eq_some_iff]

theorem value_call {name : String} {args : List (Expr (Exact K))} :
    I.value (.call name args) = some v ↔ ∃ as, I.values args = some as ∧
      I.function name as = some v := by
  simp [value, Option.bind_eq_some_iff]

/-! ### Operands of a call -/

theorem value_of_values {es : List (Expr (Exact K))} {as : List K} (h : I.values es = some as)
    (he : e ∈ es) : ∃ a, I.value e = some a := by
  induction es generalizing as with
  | nil => cases he
  | cons d es ih =>
    simp only [values, Option.bind_eq_bind, Option.bind_eq_some_iff] at h
    obtain ⟨a, ha, bs, hbs, -⟩ := h
    rcases List.mem_cons.mp he with rfl | he
    · exact ⟨a, ha⟩
    · exact ih hbs he

/-- An operand may be replaced by one of equal value. -/
theorem values_replace {a b : Expr (Exact K)} (h : I.value a = I.value b)
    (before after : List (Expr (Exact K))) :
    I.values (before ++ a :: after) = I.values (before ++ b :: after) := by
  induction before with
  | nil => simp only [List.nil_append, values, h]
  | cons e before ih => simp only [List.cons_append, values, ih]

/-! ## Trees whose value the rules keep -/

section
variable [FloorRing K]

variable (I) in
/-- What a node must meet for the rules to keep its value: no remainder is taken, a base that is
zero is squared, and the exponent of a monomial is positive. -/
def Admits : Expr (Exact K) → Prop
  | .binary .mod _ _ => False
  | .binary .pow b e => I.value b ≠ some 0 ∨ e = Expr.literal 2
  | .monomial m => ∃ x, m.exponent.get? = some x ∧ 0 < x
  | _ => True

variable (I) in
/-- Every node of a tree is as it must be. -/
def Tame (e : Expr (Exact K)) : Prop := ∀ s ∈ e.subtrees, I.Admits s

theorem tame_number {x : Exact K} : I.Tame (.number x) :=
  Expr.forall_subtrees_number.mpr trivial

theorem tame_literal {n : Nat} : I.Tame (Expr.literal n) := tame_number

theorem tame_negate : I.Tame (.negate e) ↔ I.Tame e :=
  Expr.forall_subtrees_negate.trans (and_iff_right trivial)

theorem tame_binary {op : Operator} :
    I.Tame (.binary op l r) ↔ I.Admits (.binary op l r) ∧ I.Tame l ∧ I.Tame r :=
  Expr.forall_subtrees_binary

theorem tame_monomial {m : Monomial (Exact K)} :
    I.Tame (.monomial m) ↔ ∃ x, m.exponent.get? = some x ∧ 0 < x :=
  Expr.forall_subtrees_monomial

theorem tame_call {name : String} {args : List (Expr (Exact K))} :
    I.Tame (.call name args) ↔ ∀ e ∈ args, I.Tame e :=
  Expr.forall_subtrees_call.trans (and_iff_right trivial)

theorem admits_of_isAdditive {op : Operator} (h : op.isAdditive = true) :
    I.Admits (.binary op l r) := by
  cases op <;> trivial

theorem admits_of_isMultiplicative {op : Operator} (h : op.isMultiplicative = true) :
    I.Admits (.binary op l r) := by
  cases op <;> trivial

/-! ## Steps that keep the value -/

variable (I) in
/-- A relation that keeps tame trees tame and their values as they are. -/
def Preserves (R : Expr (Exact K) → Expr (Exact K) → Prop) : Prop :=
  ∀ a b v, R a b → I.Tame a → I.value a = some v → I.Tame b ∧ I.value b = some v

/-- What keeps values at the root of a tree, and changes no literal, keeps them everywhere. -/
theorem Preserves.within {R : Expr (Exact K) → Expr (Exact K) → Prop} (hR : I.Preserves R)
    (hliteral : ∀ x b, ¬ R (.number x) b) : I.Preserves (Expr.Within R) := by
  intro a b v h
  induction h generalizing v with
  | root h => exact hR _ _ v h
  | negate _ ih =>
    intro ht hv
    obtain ⟨u, hu, rfl⟩ := value_negate.mp hv
    obtain ⟨ht', hu'⟩ := ih u (tame_negate.mp ht) hu
    exact ⟨tame_negate.mpr ht', value_negate.mpr ⟨u, hu', rfl⟩⟩
  | @left op a b r _ ih =>
    intro ht hv
    obtain ⟨u, w, hu, hw, hop⟩ := value_binary.mp hv
    obtain ⟨hroot, hta, htr⟩ := tame_binary.mp ht
    obtain ⟨htb, hu'⟩ := ih u hta hu
    refine ⟨tame_binary.mpr ⟨?_, htb, htr⟩, value_binary.mpr ⟨u, w, hu', hw, hop⟩⟩
    cases op with
    | pow => rwa [Admits, hu', ← hu]
    | _ => exact hroot
  | @right op l a b hab ih =>
    intro ht hv
    obtain ⟨u, w, hu, hw, hop⟩ := value_binary.mp hv
    obtain ⟨hroot, htl, hta⟩ := tame_binary.mp ht
    obtain ⟨htb, hw'⟩ := ih w hta hw
    refine ⟨tame_binary.mpr ⟨?_, htl, htb⟩, value_binary.mpr ⟨u, w, hu, hw', hop⟩⟩
    cases op with
    | pow =>
      -- the exponent of a base that is zero is a literal, and a literal takes no step
      rcases hroot with hbase | rfl
      · exact .inl hbase
      · cases hab with
        | root h => exact absurd h (hliteral _ _)
    | _ => exact hroot
  | @argument name before a b after _ ih =>
    intro ht hv
    obtain ⟨as, has, hf⟩ := value_call.mp hv
    have hargs := tame_call.mp ht
    have hmem : a ∈ before ++ a :: after := by simp
    obtain ⟨u, hu⟩ := value_of_values has hmem
    obtain ⟨htb, hu'⟩ := ih u (hargs a hmem) hu
    refine ⟨tame_call.mpr fun e he => ?_, value_call.mpr ⟨as, ?_, hf⟩⟩
    · simp only [List.mem_append, List.mem_cons] at he
      rcases he with he | rfl | he
      · exact hargs e (by simp [he])
      · exact htb
      · exact hargs e (by simp [he])
    · rw [values_replace (hu'.trans hu.symm), has]

/-- What one step keeps, any number of steps keep. -/
theorem Preserves.steps {R : Expr (Exact K) → Expr (Exact K) → Prop} (hR : I.Preserves R)
    {a b : Expr (Exact K)} (h : Relation.ReflTransGen R a b) (ht : I.Tame a)
    (hv : I.value a = some v) : I.Tame b ∧ I.value b = some v := by
  induction h with
  | refl => exact ⟨ht, hv⟩
  | tail _ hstep ih => exact hR _ _ v hstep ih.1 ih.2

end

end Interpretation
end SymbolicAlgebra
