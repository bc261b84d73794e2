import SymbolicAlgebra.Proofs.Rewrite.Census
import SymbolicAlgebra.Proofs.Rewrite.NormalForm

/-!
# What the simplifier tends to

From some ceiling on, the simplifier gives one and the same tree. `SimplifiesTo`
names that tree, so that what is said of it need not mention a ceiling.

Results:
* `Marks.count_simplify_le`: a result has no more marked nodes than the tree.
* `simplify_of_normal`: a tree that a pass and a folding leave alone is its own
  result.
* `exists_simplifiesTo`: a tree without `=` has such a result, and it has no `=`.
* `simplify_outcome_cases`: below that ceiling the simplifier gives the same
  tree or stops at the ceiling.
* `SimplifiesTo.induction`: what every round keeps holds of the result.
-/
namespace SymbolicAlgebra.Expr

variable {α : Type} [Scalar α] {target : String} {ceiling left : Nat} {e e' r s : Expr α}

/-- A tree that a pass and a folding leave as it is. -/
structure Normal (target : String) (e : Expr α) : Prop where
  pass_eq : pass target e = pure e
  fold_eq : fold e = .ok e

/-- The tree that the simplifier gives from some ceiling on. -/
def SimplifiesTo (target : String) (e r : Expr α) : Prop :=
  ∃ n, ∀ ceiling, n ≤ ceiling → (simplify target ceiling e).outcome = .ok r

/-! ## Normal trees -/

namespace Normal

/-- No rule fires at the root of a normal tree. -/
theorem contract?_eq_none (h : Normal target e) : contract? target e = none :=
  pass_eq_pure_iff.mp h.pass_eq e (self_mem_subtrees e)

theorem of_mem (h : Normal target e) (hs : s ∈ e.subtrees) : Normal target s :=
  ⟨pass_subtrees h.pass_eq s hs, fold_subtrees h.fold_eq s hs⟩

/-- The operands of a normal operation are normal. -/
theorem of_binary {op : Operator} {l r : Expr α} (h : Normal target (.binary op l r)) :
    Normal target l ∧ Normal target r := by
  constructor
  · exact h.of_mem (by simp [subtrees, self_mem_subtrees])
  · exact h.of_mem (by simp [subtrees, self_mem_subtrees])

/-- The operand of a normal negation is normal. -/
theorem of_negate (h : Normal target (.negate e)) : Normal target e :=
  h.of_mem (by simp [subtrees, self_mem_subtrees])

/-- An operation on normal operands is normal if no rule fires and nothing folds at its root. -/
theorem binary {op : Operator} {l r : Expr α} (hl : Normal target l) (hr : Normal target r)
    (hroot : contract? target (.binary op l r) = none)
    (hfold : foldBinary op l r = .ok (.binary op l r)) : Normal target (.binary op l r) := by
  refine ⟨pass_eq_pure_iff.mpr (forall_subtrees_binary.mpr ⟨hroot, ?_, ?_⟩), ?_⟩
  · exact pass_eq_pure_iff.mp hl.pass_eq
  · exact pass_eq_pure_iff.mp hr.pass_eq
  · exact fold_binary_eq_ok.mpr ⟨l, hl.fold_eq, r, hr.fold_eq, hfold⟩

theorem number {x : α} : Normal target (.number x) := ⟨rfl, rfl⟩

/-- A negation of a normal tree is normal if no rule fires at its root. -/
theorem negate (h : Normal target e) (hroot : contract? target (.negate e) = none) :
    Normal target (.negate e) :=
  ⟨pass_eq_pure_iff.mpr (forall_subtrees_negate.mpr ⟨hroot, pass_eq_pure_iff.mp h.pass_eq⟩),
    fold_negate_eq_ok.mpr ⟨e, h.fold_eq, rfl⟩⟩

/-- A monomial that no rule changes is normal. -/
theorem monomial {m : Monomial α} (h : contract? target (.monomial m) = none) :
    Normal target (.monomial m) :=
  ⟨pass_eq_pure_iff.mpr (forall_subtrees_monomial.mpr h), rfl⟩

/-- A normal monomial stays normal when its coefficient is set to one. -/
theorem unit [LawfulOne α] {m : Monomial α} (h : Normal target (.monomial m)) :
    Normal target (.monomial { m with coefficient := Scalar.natural 1 }) := by
  obtain ⟨-, hexp, -⟩ := contract?_monomial_eq_none h.contract?_eq_none
  refine .monomial ?_
  simp [contract?, monomialRule?, fired, hexp, LawfulOne.eqv_one_zero, LawfulOne.isNegative_one]

end Normal

/-- A pass over an operation on normal operands only looks at its root. -/
theorem pass_binary_of_normal {op : Operator} {l r : Expr α} (hl : Normal target l)
    (hr : Normal target r) : pass target (.binary op l r) =
      Traced.ofStep (contract? target (.binary op l r)) (.binary op l r) := by
  rw [pass, hl.pass_eq, pure_bind, hr.pass_eq, pure_bind, contract?]

/-! ## Counts -/

section
variable {f : Expr α → Bool}

theorem Marks.count_settle_le (hf : Marks f)
    (h : (settle target ceiling left e).outcome = .ok r) : count f r ≤ count f e := by
  induction left generalizing e with
  | zero => cases h
  | succ left ih =>
    have hpass := hf.count_pass_le target e
    cases hs : (pass target e).value.same e with
    | true =>
      rw [settle_outcome_of_same hs] at h
      cases h
      exact hpass
    | false =>
      rw [settle_outcome_of_not_same hs, except_bind_eq_ok] at h
      obtain ⟨next, hnext, h⟩ := h
      exact (ih h).trans ((hf.count_fold_le hnext).trans hpass)

/-- The simplifier raises no count. -/
theorem Marks.count_simplify_le (hf : Marks f)
    (h : (simplify target ceiling e).outcome = .ok r) : count f r ≤ count f e := by
  rw [simplify_outcome, except_bind_eq_ok] at h
  obtain ⟨next, hnext, h⟩ := h
  exact (hf.count_settle_le h).trans ((hf.count_fold_le hnext).trans (hf.count_pass_le target e))

end

/-! ## Results -/

section
variable [LawfulSign α]

/-- A round that gives a normal tree gives the result, at any ceiling that admits a pass. -/
theorem simplify_of_round (hround : fold (pass target e).value = .ok r) (hr : Normal target r)
    (hpos : 0 < ceiling) : (simplify target ceiling e).outcome = .ok r := by
  obtain ⟨left, rfl⟩ := Nat.exists_eq_add_of_le' hpos
  rw [simplify_outcome, hround]
  exact settle_of_pass_eq_pure hr.pass_eq

/-- A normal tree is its own result. -/
theorem simplify_of_normal (h : Normal target e) (hpos : 0 < ceiling) :
    (simplify target ceiling e).outcome = .ok e :=
  simplify_of_round (by rw [h.pass_eq, Traced.value_pure, h.fold_eq]) h hpos

theorem Normal.simplifiesTo (h : Normal target e) : SimplifiesTo target e e :=
  ⟨1, fun _ hc => simplify_of_normal h hc⟩

namespace SimplifiesTo

/-- A round that gives a normal tree gives the result. -/
theorem of_round (hround : fold (pass target e).value = .ok r) (hr : Normal target r) :
    SimplifiesTo target e r := ⟨1, fun _ hc => simplify_of_round hround hr hc⟩

omit [LawfulSign α] in
theorem unique (h : SimplifiesTo target e r) (h' : SimplifiesTo target e s) : r = s := by
  obtain ⟨n, hn⟩ := h
  obtain ⟨m, hm⟩ := h'
  have hr := hn (max n m) (Nat.le_max_left n m)
  rw [hm (max n m) (Nat.le_max_right n m)] at hr
  cases hr
  rfl

/-- What a pass and a folding together keep holds of the result. -/
theorem induction {p : Expr α → Prop} (h : SimplifiesTo target e r)
    (round : ∀ a b, p a → fold (pass target a).value = .ok b → p b) (start : p e) : p r := by
  obtain ⟨n, hn⟩ := h
  exact (simplify_induction round start (hn n (Nat.le_refl n))).1

/-- A result is normal. -/
theorem normal (h : SimplifiesTo target e r) : Normal target r := by
  obtain ⟨n, hn⟩ := h
  have hr := simplify_induction (p := fun _ => True) (fun _ _ _ _ => trivial) trivial
    (hn n (Nat.le_refl n))
  exact ⟨hr.2.1, hr.2.2⟩

/-- A normal tree has no other result. -/
theorem eq_of_normal (h : SimplifiesTo target e r) (he : Normal target e) : r = e :=
  h.unique he.simplifiesTo

omit [LawfulSign α] in
/-- A result has no more marked nodes than the tree. -/
theorem count_le {f : Expr α → Bool} (hf : Marks f) (h : SimplifiesTo target e r) :
    count f r ≤ count f e := by
  obtain ⟨n, hn⟩ := h
  exact hf.count_simplify_le (hn n (Nat.le_refl n))

omit [LawfulSign α] in
theorem targets_le (h : SimplifiesTo target e r) (name : String) :
    r.targets name ≤ e.targets name := by
  rw [targets_eq_count, targets_eq_count]
  exact h.count_le (marks_isTarget name)

omit [LawfulSign α] in
theorem equalityFree (h : SimplifiesTo target e r) (he : e.EqualityFree) : r.EqualityFree := by
  rw [equalityFree_iff_count] at he ⊢
  exact Nat.le_zero.mp (he ▸ h.count_le marks_isEquation)

end SimplifiesTo

omit [LawfulSign α] in
/-- A round on a tree without `=` gives a tree without `=`. -/
theorem exists_round (target : String) (he : e.EqualityFree) :
    ∃ next, fold (pass target e).value = .ok next ∧ next.EqualityFree := by
  have hpass : (pass target e).value.EqualityFree := by
    rw [equalityFree_iff_count] at he ⊢
    exact Nat.le_zero.mp (he ▸ marks_isEquation.count_pass_le target e)
  obtain ⟨next, hnext⟩ := exists_fold_eq_ok hpass
  refine ⟨next, hnext, ?_⟩
  rw [equalityFree_iff_count] at hpass ⊢
  exact Nat.le_zero.mp (hpass ▸ marks_isEquation.count_fold_le hnext)

omit [LawfulSign α] in
theorem settle_outcome_cases (target : String) (ceiling left : Nat) (he : e.EqualityFree) :
    (settle target ceiling left e).outcome = .error (.unsettled ceiling) ∨
      ∃ r, (settle target ceiling left e).outcome = .ok r := by
  induction left generalizing e with
  | zero => exact .inl rfl
  | succ left ih =>
    cases hs : (pass target e).value.same e with
    | true => exact .inr ⟨_, settle_outcome_of_same hs⟩
    | false =>
      obtain ⟨next, hnext, hfree⟩ := exists_round target he
      rw [settle_outcome_of_not_same hs, hnext]
      exact ih hfree

omit [LawfulSign α] in
/-- More passes left change nothing where the loop has come to its end. -/
theorem settle_mono {ceiling' left' : Nat} (h : (settle target ceiling left e).outcome = .ok r)
    (hle : left ≤ left') : (settle target ceiling' left' e).outcome = .ok r := by
  induction left generalizing e left' with
  | zero => cases h
  | succ left ih =>
    obtain ⟨left', rfl⟩ := Nat.exists_eq_add_of_le' (Nat.le_of_add_left_le hle)
    cases hs : (pass target e).value.same e with
    | true =>
      rw [settle_outcome_of_same hs] at h ⊢
      exact h
    | false =>
      rw [settle_outcome_of_not_same hs, except_bind_eq_ok] at h
      obtain ⟨next, hnext, h⟩ := h
      rw [settle_outcome_of_not_same hs, hnext]
      exact ih h (by omega)

omit [LawfulSign α] in
/-- Where the simplifier gives a tree, it is the one that it gives from some ceiling on. -/
theorem simplifiesTo_of_simplify (h : (simplify target ceiling e).outcome = .ok r) :
    SimplifiesTo target e r := by
  rw [simplify_outcome, except_bind_eq_ok] at h
  obtain ⟨next, hnext, h⟩ := h
  refine ⟨ceiling, fun ceiling' hle => ?_⟩
  rw [simplify_outcome, hnext]
  exact settle_mono h hle

omit [LawfulSign α] in
/-- On a tree without `=` the simplifier gives a tree or stops at the ceiling. -/
theorem simplify_outcome_cases (target : String) (ceiling : Nat) (he : e.EqualityFree) :
    (simplify target ceiling e).outcome = .error (.unsettled ceiling) ∨
      ∃ r, (simplify target ceiling e).outcome = .ok r ∧ SimplifiesTo target e r := by
  obtain ⟨next, hnext, hfree⟩ := exists_round target he
  rcases settle_outcome_cases target ceiling ceiling hfree
    with h | ⟨r, h⟩
  · left
    rw [simplify_outcome, hnext]
    exact h
  · right
    have hr : (simplify target ceiling e).outcome = .ok r := by
      rw [simplify_outcome, hnext]
      exact h
    exact ⟨r, hr, simplifiesTo_of_simplify hr⟩

/-- A tree without `=` has a result. -/
theorem exists_simplifiesTo (target : String) (he : e.EqualityFree) :
    ∃ r, SimplifiesTo target e r := by
  obtain ⟨n, outcome, hout, hn⟩ := simplify_converges target e
  have hnn := hn n (Nat.le_refl n)
  rcases simplify_outcome_cases target n he with h | ⟨r, -, h⟩
  · rw [hnn] at h
    rcases hout with rfl | ⟨r, rfl⟩ <;> cases h
  · exact ⟨r, h⟩

end

end SymbolicAlgebra.Expr
