import SymbolicAlgebra.Equation.Isolate
import SymbolicAlgebra.Proofs.Equation.Transposition
import SymbolicAlgebra.Proofs.Rewrite.Steps

/-!
# The equations that isolating a variable goes through

`Visits target ceiling e s` says that `s` is the equation at the start of some
iteration, or the one that an iteration ends with. It does not say when the loop
stops, so what holds of all visited equations holds in every iteration.

Results:
* `normalize_eq_ok`: both sides of a normalized equation are simplified.
* `transpose_value`: a transposition moves a term or leaves the equation alone.
* `visits_of_isolate`: the result is a visited equation.
-/
namespace SymbolicAlgebra.Equation

variable {α : Type} [Scalar α] {target : String} {ceiling left : Nat} {e s r : Equation α}

/-- Normalizing simplifies both sides. -/
theorem normalize_eq_ok (h : (normalize target ceiling e).outcome = .ok s) :
    (e.lhs.simplify target ceiling).outcome = .ok s.lhs ∧
      (e.rhs.simplify target ceiling).outcome = .ok s.rhs := by
  simp only [normalize, Attempt.outcome_bind, except_bind_eq_ok] at h
  obtain ⟨lhs, hl, rhs, hr, hs⟩ := h
  cases hs
  exact ⟨hl, hr⟩

/-- A transposition moves a term or leaves the equation as it is. -/
theorem transpose_value (target : String) (e : Equation α) :
    (transpose target e).value = e ∨ ∃ t, Moves target t e (transpose target e).value := by
  unfold transpose
  cases h : e.transpose? target with
  | none => exact .inl rfl
  | some step => exact .inr ⟨step.1, moves_of_transpose? h⟩

/-- The equations at the start and at the end of the iterations. -/
inductive Visits (target : String) (ceiling : Nat) (e : Equation α) : Equation α → Prop
  | start {a} : (normalize target ceiling e).outcome = .ok a → Visits target ceiling e a
  | next {a b} : Visits target ceiling e a →
      (normalize target ceiling (transpose target a).value).outcome = .ok b →
      Visits target ceiling e b

theorem visits_of_settle (hs : Visits target ceiling e s)
    (h : (settle target ceiling left s).outcome = .ok r) : Visits target ceiling e r := by
  induction left generalizing s with
  | zero => cases h
  | succ left ih =>
    simp only [settle, Attempt.outcome_bind, Attempt.outcome_traced, pure_bind,
      except_bind_eq_ok] at h
    obtain ⟨current, hcurrent, h⟩ := h
    have hnext := Visits.next hs hcurrent
    split at h
    · cases h; exact hnext
    · exact ih hnext h

/-- The result of isolating a variable is a visited equation. -/
theorem visits_of_isolate (h : (isolate target ceiling e).outcome = .ok r) :
    Visits target ceiling e r := by
  simp only [isolate, Attempt.outcome_bind, except_bind_eq_ok] at h
  obtain ⟨start, hstart, h⟩ := h
  exact visits_of_settle (.start hstart) h

/-- Isolating a variable in a tree that is an equation gives an equation. -/
theorem isolate_toExpr_eq_ok {r : Expr α} (h : (e.toExpr.isolate target ceiling).outcome = .ok r) :
    ∃ s, r = s.toExpr ∧ (isolate target ceiling e).outcome = .ok s := by
  simp only [Expr.isolate, Expr.asEquation, ofExpr?_toExpr, Attempt.outcome_bind,
    Attempt.outcome_ofExcept, except_bind_eq_ok] at h
  obtain ⟨_, hs, s, h, hr⟩ := h
  cases hs
  cases hr
  exact ⟨s, rfl, h⟩

end SymbolicAlgebra.Equation
