import SymbolicAlgebra.Proofs.Equation.Settle

/-!
# Isolated equations are fixed points

The loop stops where an iteration ends in an equal equation. Equal is less than
the same, for equality of trees does not tell `0.0` from `-0.0`, and each
iteration simplifies both sides anew. Still, nothing has moved in the last
iteration but a division by the coefficient one, so the equation that the loop
gives is at rest, and every part of the solver gives it back.

Results:
* `isolate_of_atRest`: an equation at rest whose sides are normal is its own
  result.
* `atRest_of_isolate`: every result is one.
* `isolate_fixed_point`: what isolating gives on doubles is a fixed point of
  simplification, of an iteration and of isolating, all at the same ceiling.
-/
namespace SymbolicAlgebra.Equation

open Relation

variable {α : Type} [Scalar α] [LawfulSign α] [LawfulOne α]
variable {target : String} {ceiling left : Nat} {e r s : Equation α}

/-- The loop gives back an equation at rest. -/
theorem settle_of_atRest (h : AtRest target s) (hs : Normal target s) (hpos : 0 < ceiling) :
    (settle target ceiling (left + 1) s).outcome = .ok s :=
  settle_outcome_of_same (h.normalize_transpose hs hpos) (same_self s)

/-- Isolating gives back an equation at rest. -/
theorem isolate_of_atRest (h : AtRest target s) (hs : Normal target s) (hpos : 0 < ceiling) :
    (isolate target ceiling s).outcome = .ok s := by
  obtain ⟨left, rfl⟩ := Nat.exists_eq_add_of_le' hpos
  simp only [isolate, Attempt.outcome_bind, hs.normalize hpos]
  exact settle_of_atRest h hs hpos

/-- What isolating gives is at rest and has normal sides, and the ceiling admits a pass. -/
theorem atRest_of_isolate (h : (isolate target ceiling e).outcome = .ok r) :
    AtRest target r ∧ Normal target r ∧ 0 < ceiling := by
  simp only [isolate, Attempt.outcome_bind, except_bind_eq_ok] at h
  obtain ⟨start, hstart, h⟩ := h
  have hnormal : Normal target start := (normalizesTo_of_normalize hstart).normal
  obtain ⟨hreach, hrest⟩ := reaches_of_settle hnormal h
  have hr : Normal target r := by
    -- the result is the start of the run or follows some equation of it
    rcases hreach.cases_tail with rfl | ⟨previous, -, hfollows⟩
    · exact hnormal
    · exact hfollows.normal
  refine ⟨hrest, hr, Nat.pos_of_ne_zero ?_⟩
  rintro rfl
  cases h

omit [LawfulSign α] [LawfulOne α] in
/-- A tree that is isolated is an equation. -/
theorem exists_equation_of_isolate {t r : Expr α}
    (h : (t.isolate target ceiling).outcome = .ok r) :
    ∃ e s : Equation α, t = e.toExpr ∧ r = s.toExpr ∧
      (isolate target ceiling e).outcome = .ok s := by
  have hroot : ∃ e, ofExpr? t = some e := by
    cases ht : ofExpr? t with
    | some e => exact ⟨e, rfl⟩
    | none =>
      simp only [Expr.isolate, Expr.asEquation, ht, Attempt.outcome_bind,
        Attempt.outcome_ofExcept, except_bind_eq_ok] at h
      obtain ⟨_, herr, -⟩ := h
      cases herr
  obtain ⟨e, he⟩ := hroot
  obtain rfl := toExpr_of_ofExpr? he
  obtain ⟨s, hr, hs⟩ := isolate_toExpr_eq_ok h
  exact ⟨e, s, rfl, hr, hs⟩

/-- What isolating a variable gives on doubles is an equation. The simplifier leaves both of its
sides as they are, transposing and normalizing gives it back, and so does isolating the variable
once more. The ceiling is the same throughout. -/
theorem isolate_fixed_point {t r : Expr Float}
    (h : (t.isolate target ceiling).outcome = .ok r) :
    ∃ s moved : Equation Float, r = s.toExpr ∧
      (s.lhs.simplify target ceiling).outcome = .ok s.lhs ∧
      (s.rhs.simplify target ceiling).outcome = .ok s.rhs ∧
      (r.transpose target).outcome = .ok moved.toExpr ∧
      (normalize target ceiling moved).outcome = .ok s ∧
      (r.isolate target ceiling).outcome = .ok r := by
  obtain ⟨e, s, -, rfl, hs⟩ := exists_equation_of_isolate h
  obtain ⟨hrest, hnormal, hpos⟩ := atRest_of_isolate hs
  refine ⟨s, (transpose target s).value, rfl, Expr.simplify_of_normal hnormal.lhs hpos,
    Expr.simplify_of_normal hnormal.rhs hpos, rfl, hrest.normalize_transpose hnormal hpos, ?_⟩
  rw [isolate_toExpr_outcome, isolate_of_atRest hrest hnormal hpos]
  rfl

/-- `2 * x + 4 = y` becomes `x = (y - 4) / 2`, where the division by the coefficient one is the only
transposition that applies, and stays so. -/
theorem isolate_fixed_point_scaled :
    let x : Expr Float := .monomial ⟨1.0, "x", 1.0⟩
    let y : Expr Float := .monomial ⟨1.0, "y", 1.0⟩
    let t : Expr Float := .binary .equals (.binary .add (.binary .mul (.number 2.0) x)
      (.number 4.0)) y
    let s : Equation Float := ⟨x, .binary .div (.binary .sub y (.number 4.0)) (.number 2.0)⟩
    (t.isolate "x" 8).outcome = .ok s.toExpr ∧
      (s.transpose? "x").map Prod.fst = some .scaled ∧
      ∃ moved : Equation Float, (s.toExpr.transpose "x").outcome = .ok moved.toExpr ∧
        (normalize "x" 8 moved).outcome = .ok s ∧
        (s.toExpr.isolate "x" 8).outcome = .ok s.toExpr := by
  intro x y t s
  have h : (t.isolate "x" 8).outcome = .ok s.toExpr := rfl
  obtain ⟨s', moved, heq, -, -, hmoved, hnormal, hagain⟩ := isolate_fixed_point h
  obtain rfl : s = s' := Option.some.inj (congrArg ofExpr? heq)
  exact ⟨h, rfl, moved, hmoved, hnormal, hagain⟩

end SymbolicAlgebra.Equation
