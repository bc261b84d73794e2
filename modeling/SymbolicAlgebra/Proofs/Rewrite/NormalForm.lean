import SymbolicAlgebra.Proofs.Rewrite.Settle

/-!
# Results are normal forms

The simplifier compares only whole trees, but a pass that ends in an equal tree
has fired nothing, so no rule applies anywhere in a result and no two literals
in it have a whole result. `Redex` spells out what that excludes, shape by
shape, without a rule function.

Results:
* `contracts_or_collapses_of_redex`: each of the shapes is one that a rule or a
  folding changes.
* `simplify_normal`: at every subtree of a result a pass fires nothing, folding
  changes nothing and no such shape stands; the result is its own result.
-/
namespace SymbolicAlgebra.Expr

variable {α : Type} [Scalar α] {target : String} {e : Expr α}

/-- Shapes that no result contains. -/
inductive Redex (target : String) : Expr α → Prop
  /-- Zero as either term of a sum or a difference. -/
  | zeroTerm {op l r} : op.isAdditive = true → l.isLiteral 0 = true ∨ r.isLiteral 0 = true →
      Redex target (.binary op l r)
  | zeroFactor {l r} : l.isLiteral 0 = true ∨ r.isLiteral 0 = true →
      Redex target (.binary .mul l r)
  | oneFactor {l r} : l.isLiteral 1 = true ∨ r.isLiteral 1 = true →
      Redex target (.binary .mul l r)
  | oneDivisor {l r} : r.isLiteral 1 = true → Redex target (.binary .div l r)
  | trivialExponent {l r} : r.isLiteral 0 = true ∨ r.isLiteral 1 = true →
      Redex target (.binary .pow l r)
  | doubleNegation {a} : Redex target (.negate (.negate a))
  | negatedOperation {op l r} : op ≠ .pow → op ≠ .equals →
      Redex target (.negate (.binary op l r))
  | negatedTerm {op l b} : op.isAdditive = true → Redex target (.binary op l (.negate b))
  | scaledSum {op n b c} : op.isAdditive = true →
      Redex target (.binary .mul (.number n) (.binary op b c))
  | scaledMonomial {n m} : Redex target (.binary .mul (.number n) (.monomial m))
  | dividedMonomial {m n} : Redex target (.binary .div (.monomial m) (.number n))
  | zeroCoefficient {m} : Scalar.eqv m.coefficient (Scalar.natural 0) = true →
      Redex target (.monomial m)
  | negativeCoefficient {m} : Scalar.isNegative m.coefficient = true → Redex target (.monomial m)
  | zeroExponent {m} : Scalar.eqv m.exponent (Scalar.natural 0) = true →
      Redex target (.monomial m)
  | likeTerms {op a b} : op.isAdditive = true → a.like b = true →
      Redex target (.binary op (.monomial a) (.monomial b))
  | sameVariable {a b} : a.var = b.var → Redex target (.binary .mul (.monomial a) (.monomial b))
  /-- A target that stands second under an operation with a monomial of another variable. -/
  | innerRight {op inner a b m} : op.commutesPast inner = true → b.isTarget target = true →
      m.var ≠ target → Redex target (.binary op (.binary inner a b) (.monomial m))
  /-- A target that stands first, unless the operation is a quotient. -/
  | innerLeft {op inner a b m} : op.commutesPast inner = true → op ≠ .div →
      a.isTarget target = true → m.var ≠ target →
      Redex target (.binary op (.binary inner a b) (.monomial m))
  | literals {op a b x} : op.result? a b = some x → Scalar.isWhole x = true →
      Redex target (.binary op (.number a) (.number b))

/-! ## Each shape is changed -/

theorem merge?_of_like {op : Operator} {a b : Monomial α} (hop : op.isAdditive = true)
    (h : a.like b = true) : ∃ m, a.merge? op b = some m := by
  have hvar : a.var = b.var := beq_iff_eq.mp (Bool.and_eq_true_iff.mp h).1
  cases op with
  | add | sub => simp [Monomial.merge?, hvar, h]
  | _ => cases hop

theorem merge?_of_var {a b : Monomial α} (h : a.var = b.var) : ∃ m, a.merge? .mul b = some m := by
  simp [Monomial.merge?, h]

/-- A target that stands first is moved out of a sum, a difference and a product. -/
theorem contracts_innerLeft {op inner : Operator} {a b : Expr α} {m : Monomial α}
    (hpast : op.commutesPast inner = true) (hop : op ≠ .div) (ha : a.isTarget target = true)
    (hm : m.var ≠ target) :
    ∃ e', Contracts target (.binary op (.binary inner a b) (.monomial m)) e' := by
  cases op with
  | add => exact ⟨_, .hoistedSum ((commutesPast_of_isAdditive _ _ rfl).symm.trans hpast) ha hm⟩
  | sub =>
    exact ⟨_, .hoistedDifference ((commutesPast_of_isAdditive _ _ rfl).symm.trans hpast) ha hm⟩
  | mul =>
    exact ⟨_, .hoistedProduct ((commutesPast_of_isMultiplicative _ _ rfl).symm.trans hpast) ha hm⟩
  | div => exact absurd rfl hop
  | mod | pow | equals => cases inner <;> cases hpast

/-- What no result contains, a rule or the folding of literals changes. -/
theorem contracts_or_collapses_of_redex (h : Redex target e) :
    (∃ e', Contracts target e e') ∨ ∃ e', Collapses e e' := by
  cases h with
  | @zeroTerm op l r hop h =>
    left
    cases op with
    | add => exact h.elim (fun h => ⟨_, .zeroPlus h⟩) fun h => ⟨_, .plusZero h⟩
    | sub => exact h.elim (fun h => ⟨_, .zeroMinus h⟩) fun h => ⟨_, .minusZero h⟩
    | _ => cases hop
  | zeroFactor h =>
    exact .inl (h.elim (fun h => ⟨_, .zeroTimes h⟩) fun h => ⟨_, .timesZero h⟩)
  | oneFactor h => exact .inl (h.elim (fun h => ⟨_, .oneTimes h⟩) fun h => ⟨_, .timesOne h⟩)
  | oneDivisor h => exact .inl ⟨_, .overOne h⟩
  | trivialExponent h =>
    exact .inl (h.elim (fun h => ⟨_, .powerZero h⟩) fun h => ⟨_, .powerOne h⟩)
  | doubleNegation => exact .inl ⟨_, .negatedNegation⟩
  | @negatedOperation op l r hpow heq =>
    left
    cases op with
    | add | sub => exact ⟨_, .negatedSum rfl⟩
    | mul | div => exact ⟨_, .negatedProduct (.inl rfl)⟩
    | mod => exact ⟨_, .negatedProduct (.inr rfl)⟩
    | pow => exact absurd rfl hpow
    | equals => exact absurd rfl heq
  | @negatedTerm op l b hop =>
    left
    cases op with
    | add => exact ⟨_, .plusNegated⟩
    | sub => exact ⟨_, .minusNegated⟩
    | _ => cases hop
  | scaledSum hop => exact .inl ⟨_, .timesSum hop⟩
  | scaledMonomial => exact .inl ⟨_, .timesMonomial⟩
  | dividedMonomial => exact .inl ⟨_, .monomialOver⟩
  | zeroCoefficient h => exact .inl ⟨_, .zeroCoefficient h⟩
  | negativeCoefficient h => exact .inl ⟨_, .negativeCoefficient h⟩
  | zeroExponent h => exact .inl ⟨_, .zeroExponent h⟩
  | likeTerms hop h =>
    obtain ⟨m, hm⟩ := merge?_of_like hop h
    exact .inl ⟨_, .merged hm⟩
  | sameVariable h =>
    obtain ⟨m, hm⟩ := merge?_of_var h
    exact .inl ⟨_, .merged hm⟩
  | innerRight hpast hb hm => exact .inl ⟨_, .hoistedRight hpast hb hm⟩
  | innerLeft hpast hop ha hm => exact .inl (contracts_innerLeft hpast hop ha hm)
  | literals hx hw => exact .inr ⟨_, .literals hx hw⟩

/-- Literals with a whole result are not their own folding. -/
theorem not_collapses_of_fold {e' : Expr α} (h : fold e = .ok e) : ¬ Collapses e e' := by
  intro hc
  cases hc with
  | @literals op a b x hx hw =>
    obtain ⟨a', ha, b', hb, hab⟩ := fold_binary_eq_ok.mp h
    cases ha
    cases hb
    simp [foldBinary, hx, hw] at hab

/-- A tree that a pass and a folding leave as it is contains none of the shapes. -/
theorem not_redex (hp : pass target e = pure e) (hf : fold e = .ok e) : ¬ Redex target e := by
  intro h
  have hroot := pass_eq_pure_iff.mp hp e (self_mem_subtrees e)
  rcases contracts_or_collapses_of_redex h with ⟨e', hc⟩ | ⟨e', hc⟩
  · exact not_contracts hroot hc
  · exact not_collapses_of_fold hf hc

/-! ## Results -/

theorem pass_subtrees (h : pass target e = pure e) : ∀ s ∈ e.subtrees, pass target s = pure s := by
  intro s hs
  exact pass_eq_pure_iff.mpr (forall_subtrees_of_mem (pass_eq_pure_iff.mp h) s hs)

theorem settle_of_pass_eq_pure [LawfulSign α] {ceiling left : Nat} (h : pass target e = pure e) :
    (settle target ceiling (left + 1) e).outcome = .ok e := by
  have hs : (pass target e).value.same e = true := by
    rw [h, Traced.value_pure, same_self LawfulSign.same_self]
  rw [settle_outcome_of_same hs, h, Traced.value_pure]

/-- What the simplifier gives on doubles is in normal form at every subtree and is its own
result. -/
theorem simplify_normal {t r : Expr Float} {ceiling : Nat}
    (h : (simplify target ceiling t).outcome = .ok r) :
    (∀ s ∈ r.subtrees, pass target s = pure s ∧ fold s = .ok s) ∧
      (∀ s ∈ r.subtrees, ¬ Redex target s) ∧
      (simplify target ceiling r).outcome = .ok r := by
  obtain ⟨-, hp, hf⟩ := simplify_induction (p := fun _ => True) (fun _ _ _ _ => trivial) trivial h
  have hps := pass_subtrees hp
  have hfs := fold_subtrees hf
  refine ⟨fun s hs => ⟨hps s hs, hfs s hs⟩, fun s hs => not_redex (hps s hs) (hfs s hs), ?_⟩
  rw [simplify_outcome, hp, Traced.value_pure, hf]
  cases ceiling with
  | zero =>
    rw [simplify_outcome, except_bind_eq_ok] at h
    obtain ⟨next, -, hnext⟩ := h
    cases hnext
  | succ left => exact settle_of_pass_eq_pure hp

/-- `(x + y) - -(z)` becomes `(z + y) + x` when `x` is the target, and stays so. -/
theorem simplify_normal_sum : let x : Expr Float := .monomial ⟨1.0, "x", 1.0⟩
    let y : Expr Float := .monomial ⟨1.0, "y", 1.0⟩
    let z : Expr Float := .monomial ⟨1.0, "z", 1.0⟩
    let r := .binary .add (.binary .add z y) x
    (simplify "x" 4 (.binary .sub (.binary .add x y) (.negate z))).outcome = .ok r ∧
      (∀ s ∈ r.subtrees, ¬ Redex "x" s) ∧ (simplify "x" 4 r).outcome = .ok r := by
  intro x y z r
  have h : (simplify "x" 4 (.binary .sub (.binary .add x y) (.negate z))).outcome = .ok r := rfl
  exact ⟨h, (simplify_normal h).2⟩

end SymbolicAlgebra.Expr
