import SymbolicAlgebra.Proofs.Binary64.Datum
import SymbolicAlgebra.Proofs.Evaluation.Defined

/-!
# Folding and evaluating agree

Folding carries out some operations early, those on literals with a whole
result, and leaves the others to the evaluator. Both take the same result from
the same operands, except that the evaluator drops the sign of a remainder. So
a tree without remainders evaluates as its folding does, to the same number or
to the same first error, whichever of its parts were folded.

Results:
* `value_binary_congr`, `value_call_congr`: the value of a node depends on its
  operands by their values only, errors among them.
* `value_of_collapses`: an operation on literals evaluates to its folding.
* `value_of_fold`: a tree without remainders evaluates as its folding does.
* `eachNumber_of_fold`: folding brings in whole numbers and no others.
* `fold_value`: the two on doubles, and a folding is its own folding.
-/
namespace SymbolicAlgebra.Expr

variable {α : Type} {op : Operator} {name : String} {e e' l l' r r' : Expr α}

/-! ## Trees without remainders -/

def isRemainder : Expr α → Bool
  | .binary .mod _ _ => true
  | _ => false

/-- No remainder is taken anywhere in a tree. -/
def RemainderFree (e : Expr α) : Prop := ∀ s ∈ e.subtrees, s.isRemainder = false

instance (e : Expr α) : Decidable e.RemainderFree :=
  inferInstanceAs (Decidable (∀ s ∈ e.subtrees, s.isRemainder = false))

theorem remainderFree_binary : (binary op l r).RemainderFree ↔
    op ≠ .mod ∧ l.RemainderFree ∧ r.RemainderFree := by
  have hroot : (binary op l r).isRemainder = false ↔ op ≠ .mod := by
    cases op <;> simp [isRemainder]
  rw [RemainderFree, forall_subtrees_binary, hroot]
  rfl

/-! ## Values -/

section
variable [Elementary α]

theorem value_binary_congr (op : Operator) (hl : l'.value = l.value) (hr : r'.value = r.value) :
    (binary op l' r').value = (binary op l r).value := by
  rw [value, value, hl, hr]

theorem values_congr {es es' : List (Expr α)}
    (h : List.Forall₂ (fun e e' => e'.value = e.value) es es') : values es' = values es := by
  induction h with
  | nil => rfl
  | cons he _ ih => rw [values, values, he, ih]

theorem value_call_congr (name : String) {es es' : List (Expr α)}
    (h : List.Forall₂ (fun e e' => e'.value = e.value) es es') :
    (call name es').value = (call name es).value := by
  rw [value, value, values_congr h, h.length_eq]

/-- Folding an operation on literals, unless it is a remainder, gives what the evaluator gives. -/
theorem value_of_collapses (hop : op ≠ .mod) (h : Collapses (.binary op l r) e') :
    e'.value = (binary op l r).value := by
  cases h with
  | @literals _ a b x hx _ =>
    have heq : op ≠ .equals := by
      rintro rfl
      cases hx
    have hvalue : op.value a b = .ok x := by
      rw [Operator.value, hx]
      simp only [if_neg hop]
    rw [value, value, if_neg heq]
    exact hvalue.symm

/-- A tree without remainders evaluates as its folding does. -/
theorem value_of_fold (h : fold e = .ok e') (he : e.RemainderFree) : e'.value = e.value := by
  induction e generalizing e' with
  | number x | constant name x | monomial m =>
    cases h
    rfl
  | negate e ih =>
    obtain ⟨a, ha, rfl⟩ := fold_negate_eq_ok.mp h
    rw [value, value, ih ha (forall_subtrees_negate.mp he).2]
  | binary op l r ihl ihr =>
    obtain ⟨a, ha, b, hb, hab⟩ := fold_binary_eq_ok.mp h
    obtain ⟨hop, hl, hr⟩ := remainderFree_binary.mp he
    have hcongr := value_binary_congr op (ihl ha hl) (ihr hb hr)
    rcases foldBinary_eq_ok hab with hc | ⟨rfl, -⟩
    · exact (value_of_collapses hop hc).trans hcongr
    · exact hcongr
  | call name args ih =>
    obtain ⟨as, has, rfl⟩ := fold_call_eq_ok.mp h
    obtain ⟨-, hargs⟩ := forall_subtrees_call.mp he
    have hvalue : ∀ a ∈ args, ∀ a', fold a = .ok a' → a'.value = a.value :=
      fun a ha a' hfold => ih a ha hfold (hargs a ha)
    exact value_call_congr name (forall₂_of_mem hvalue has)

end

/-! ## Numbers -/

section
variable [Scalar α] {p : α → Prop}

/-- A property of every number that stands in a tree. -/
def EachNumber (p : α → Prop) (e : Expr α) : Prop := ∀ s ∈ e.subtrees, ∀ x, s = .number x → p x

/-- Folding brings in whole numbers and no others. -/
theorem eachNumber_of_fold (hwhole : ∀ x, Scalar.isWhole x = true → p x) (h : fold e = .ok e')
    (he : e.EachNumber p) : e'.EachNumber p := by
  induction e generalizing e' with
  | number x | constant name x | monomial m =>
    cases h
    exact he
  | negate e ih =>
    obtain ⟨a, ha, rfl⟩ := fold_negate_eq_ok.mp h
    exact forall_subtrees_negate.mpr ⟨nofun, ih ha (forall_subtrees_negate.mp he).2⟩
  | binary op l r ihl ihr =>
    obtain ⟨a, ha, b, hb, hab⟩ := fold_binary_eq_ok.mp h
    obtain ⟨-, hl, hr⟩ := forall_subtrees_binary.mp he
    rcases foldBinary_eq_ok hab with hc | ⟨rfl, -⟩
    · cases hc with
      | @literals _ _ _ x _ hx =>
        refine forall_subtrees_number.mpr ?_
        rintro _ ⟨⟩
        exact hwhole x hx
    · exact forall_subtrees_binary.mpr ⟨nofun, ihl ha hl, ihr hb hr⟩
  | call name args ih =>
    obtain ⟨as, has, rfl⟩ := fold_call_eq_ok.mp h
    obtain ⟨-, hargs⟩ := forall_subtrees_call.mp he
    have heach : ∀ a ∈ args, ∀ a', fold a = .ok a' → a'.EachNumber p :=
      fun a ha a' hfold => ih a ha hfold (hargs a ha)
    exact forall_subtrees_call.mpr ⟨nofun, forall_mem_of_forall₂ (forall₂_of_mem heach has)⟩

end

/-- On doubles, a tree without remainders that can be folded evaluates as its folding does, to the
same double or the same error. The folding is its own folding, and a number in it stands in the
tree or is an integer. -/
theorem fold_value {t r : Expr Float} (ht : t.RemainderFree) (h : fold t = .ok r) :
    r.value = t.value ∧ fold r = .ok r ∧
      ∀ x, .number x ∈ r.subtrees → .number x ∈ t.subtrees ∨
        ∃ k : ℤ, Binary64.rational? x.toModel.unpack = some (k : ℚ) := by
  refine ⟨value_of_fold h ht, fold_fold h, ?_⟩
  have hnumbers : r.EachNumber fun x => .number x ∈ t.subtrees ∨
      ∃ k : ℤ, Binary64.rational? x.toModel.unpack = some (k : ℚ) := by
    refine eachNumber_of_fold (fun x hx => .inr (Binary64.isWhole_iff.mp hx)) h ?_
    rintro s hs x rfl
    exact .inl hs
  intro x hx
  exact hnumbers _ hx x rfl

/-- `max(6/3, 1/0) - x*(-(1/2))` folds to `max(2, 1/0) - x*(-(1/2))`, and both fail at `x`. -/
theorem fold_value_unbound : let half : Expr Float := .binary .div (.number 1.0) (.number 2.0)
    let pole : Expr Float := .binary .div (.number 1.0) (.number 0.0)
    let quotient : Expr Float := .binary .div (.number 6.0) (.number 3.0)
    let scaled := .binary .mul (.monomial ⟨1.0, "x", 1.0⟩) (.negate half)
    let t := .binary .sub (.call "max" [quotient, pole]) scaled
    let r := .binary .sub (.call "max" [.number 2.0, pole]) scaled
    t.RemainderFree ∧ fold t = .ok r ∧ t.value = .error (.unbound "x") ∧ r.value = t.value := by
  intro half pole quotient scaled t r
  have ht : t.RemainderFree := by decide
  have hquotient : fold quotient = .ok (.number 2.0) := eq_ok_of_agrees (by decide +kernel)
  have hpole : fold pole = .ok pole := eq_ok_of_agrees (by decide +kernel)
  have hscaled : fold scaled = .ok scaled := eq_ok_of_agrees (by decide +kernel)
  have hcall : fold (.call "max" [quotient, pole]) = .ok (.call "max" [.number 2.0, pole]) :=
    fold_call_eq_ok.mpr ⟨_, .cons hquotient (.cons hpole .nil), rfl⟩
  have h : fold t = .ok r := fold_binary_eq_ok.mpr ⟨_, hcall, _, hscaled, rfl⟩
  exact ⟨ht, h, rfl, (fold_value ht h).1⟩

end SymbolicAlgebra.Expr
