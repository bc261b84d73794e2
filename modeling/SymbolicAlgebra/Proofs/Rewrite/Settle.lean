import SymbolicAlgebra.Proofs.Binary64.Sign
import SymbolicAlgebra.Proofs.Rewrite.Descent

/-!
# The loop settles

A round of the loop is a pass and, if the pass changed the tree, a folding.
Both go down in the order of `Descends`, so only finitely many rounds change
anything. Equality of trees does not tell `0.0` from `-0.0`, but equal trees
have equal measures, so a pass that ends in an equal tree has fired nothing.

Results:
* `pass_eq_pure_of_same`: a pass to an equal tree fires no rule.
* `simplify_induction`: what every round keeps holds of the result, and the
  result is left alone by a pass and by a folding.
* `settle_converges`: with enough passes left the loop ends, and how it ends
  does not depend on how many are left.
* `simplify_reaches_fixed_point`: the same of the whole simplifier on doubles.
-/
namespace SymbolicAlgebra.Expr

variable {α : Type} [Scalar α] {target : String} {ceiling left : Nat} {e r next : Expr α}

/-! ## One round -/

/-- A round whose pass ends in an equal tree is the last one. -/
theorem settle_outcome_of_same (h : (pass target e).value.same e = true) :
    (settle target ceiling (left + 1) e).outcome = .ok (pass target e).value := by
  simp only [settle, Attempt.outcome_bind, Attempt.outcome_traced, pure_bind, if_pos h,
    Attempt.outcome_note, Attempt.outcome_pure]
  rfl

/-- Any other round folds what the pass gave and goes on from there. -/
theorem settle_outcome_of_not_same (h : (pass target e).value.same e = false) :
    (settle target ceiling (left + 1) e).outcome =
      fold (pass target e).value >>= fun next => (settle target ceiling left next).outcome := by
  simp only [settle, Attempt.outcome_bind, Attempt.outcome_traced, pure_bind, h,
    Bool.false_eq_true, if_false, Attempt.outcome_note, Attempt.outcome_ofExcept]

/-- The simplifier settles the folding of a first pass. -/
theorem simplify_outcome (target : String) (ceiling : Nat) (e : Expr α) :
    (simplify target ceiling e).outcome =
      fold (pass target e).value >>= fun next =>
        (settle target ceiling ceiling next).outcome := by
  simp only [simplify, Attempt.outcome_bind, Attempt.outcome_traced, pure_bind,
    Attempt.outcome_ofExcept]

/-! ## What every round keeps -/

variable [LawfulSign α]

/-- No two firings of a pass cancel: a pass that ends in an equal tree has fired nothing. -/
theorem pass_eq_pure_of_same (h : (pass target e).value.same e = true) :
    pass target e = pure e := by
  rcases pass_eq_or_descends target e with hp | ⟨-, hd⟩
  · exact hp
  · exact absurd hd (not_descends_of_same h)

theorem settle_induction {p : Expr α → Prop}
    (round : ∀ a b, p a → fold (pass target a).value = .ok b → p b)
    (start : p e) (folded : fold e = .ok e) (h : (settle target ceiling left e).outcome = .ok r) :
    p r ∧ pass target r = pure r ∧ fold r = .ok r := by
  induction left generalizing e with
  | zero => cases h
  | succ left ih =>
    cases hs : (pass target e).value.same e with
    | true =>
      have hp := pass_eq_pure_of_same hs
      rw [settle_outcome_of_same hs, hp, Traced.value_pure] at h
      cases h
      exact ⟨start, hp, folded⟩
    | false =>
      rw [settle_outcome_of_not_same hs, except_bind_eq_ok] at h
      obtain ⟨next, hnext, h⟩ := h
      exact ih (round e next start hnext) (fold_fold hnext) h

/-- What a pass and a folding together keep holds of the result of the simplifier, which a pass and
a folding both leave as it is. -/
theorem simplify_induction {p : Expr α → Prop}
    (round : ∀ a b, p a → fold (pass target a).value = .ok b → p b)
    (start : p e) (h : (simplify target ceiling e).outcome = .ok r) :
    p r ∧ pass target r = pure r ∧ fold r = .ok r := by
  rw [simplify_outcome, except_bind_eq_ok] at h
  obtain ⟨next, hnext, h⟩ := h
  exact settle_induction round (round e next start hnext) (fold_fold hnext) h

/-! ## Convergence -/

/-- The ways to end other than at the ceiling. -/
def Conclusive (outcome : Except (RewriteError α) (Expr α)) : Prop :=
  outcome = .error .equality ∨ ∃ r, outcome = .ok r

/-- A round that is not the last one goes down. -/
theorem descends_of_round (hs : (pass target e).value.same e = false)
    (hf : fold (pass target e).value = .ok next) : Descends target e next := by
  have hpass : Descends target e (pass target e).value := by
    rcases pass_eq_or_descends target e with hp | ⟨-, hd⟩
    · rw [hp, Traced.value_pure, same_self LawfulSign.same_self] at hs
      cases hs
    · exact hd
  -- the folding leaves the tree where the pass took it, or takes it further down
  rcases fold_eq_or_descends target hf with heq | hd
  · rw [heq]; exact hpass
  · exact hpass.trans hd

/-- From some count of passes left on, the loop comes to the same end. -/
theorem settle_converges (target : String) (e : Expr α) : ∃ n outcome, Conclusive outcome ∧
    ∀ ceiling left, n ≤ left → (settle target ceiling left e).outcome = outcome := by
  have hwf : WellFounded fun b a : Expr α => Descends target a b := wellFounded_descends target
  induction e using hwf.induction with
  | _ e ih =>
    cases hs : (pass target e).value.same e with
    | true =>
      refine ⟨1, .ok (pass target e).value, .inr ⟨_, rfl⟩, fun ceiling left hleft => ?_⟩
      obtain ⟨left, rfl⟩ := Nat.exists_eq_add_of_le' hleft
      exact settle_outcome_of_same hs
    | false =>
      cases hf : fold (pass target e).value with
      | error err =>
        refine ⟨1, .error err, .inl (by rw [fold_error hf]), fun ceiling left hleft => ?_⟩
        obtain ⟨left, rfl⟩ := Nat.exists_eq_add_of_le' hleft
        rw [settle_outcome_of_not_same hs, hf]
        rfl
      | ok next =>
        obtain ⟨n, outcome, hout, hn⟩ := ih next (descends_of_round hs hf)
        refine ⟨n + 1, outcome, hout, fun ceiling left hleft => ?_⟩
        obtain ⟨left, rfl⟩ := Nat.exists_eq_add_of_le' (Nat.le_of_add_left_le hleft)
        rw [settle_outcome_of_not_same hs, hf]
        exact hn ceiling left (by omega)

/-- From some ceiling on, the simplifier comes to the same end, which is not at the ceiling. -/
theorem simplify_converges (target : String) (e : Expr α) : ∃ n outcome, Conclusive outcome ∧
    ∀ ceiling, n ≤ ceiling → (simplify target ceiling e).outcome = outcome := by
  cases hf : fold (pass target e).value with
  | error err =>
    refine ⟨0, .error err, .inl (by rw [fold_error hf]), fun ceiling _ => ?_⟩
    rw [simplify_outcome, hf]
    rfl
  | ok next =>
    obtain ⟨n, outcome, hout, hn⟩ := settle_converges target next
    refine ⟨n, outcome, hout, fun ceiling hle => ?_⟩
    rw [simplify_outcome, hf]
    exact hn ceiling ceiling hle

/-- Whatever the tree and the doubles in it, from some ceiling on the simplifier ends in the same
way: at an equation between literals, or at a tree that a pass leaves as it is. -/
theorem simplify_reaches_fixed_point (target : String) (e : Expr Float) : ∃ n outcome,
    (outcome = .error .equality ∨
      ∃ r, outcome = .ok r ∧ pass target r = pure r ∧ fold r = .ok r) ∧
    ∀ ceiling, n ≤ ceiling → (simplify target ceiling e).outcome = outcome := by
  obtain ⟨n, outcome, hout, hn⟩ := simplify_converges target e
  refine ⟨n, outcome, ?_, hn⟩
  rcases hout with herr | ⟨r, rfl⟩
  · exact .inl herr
  · have hr := hn n (Nat.le_refl n)
    obtain ⟨-, hfixed⟩ :=
      simplify_induction (p := fun _ => True) (fun _ _ _ _ => trivial) trivial hr
    exact .inr ⟨r, rfl, hfixed⟩

end SymbolicAlgebra.Expr
