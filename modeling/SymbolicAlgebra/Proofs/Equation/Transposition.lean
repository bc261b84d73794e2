import SymbolicAlgebra.Equation.Transposition

/-!
# The transpositions as a relation

`Moves target t e e'` says that the transposition `t` takes the equation `e` to
`e'`. It has one constructor a transposition and leaves out the order in which
they are tried.

Results:
* `moves_of_transpose?`: the transposition that is found is one of them.
* `not_moves_of_transpose?_eq_none`: where none is found, none applies.
* `eq_scaled_of_transpose?`: where the coefficient is divided by, nothing else
  applies.
-/
namespace SymbolicAlgebra.Equation

variable {α : Type} [Scalar α] {target : String} {t : Transposition} {e e' a : Equation α}

/-- One transposition applied to an equation. -/
inductive Moves (target : String) : Transposition → Equation α → Equation α → Prop
  | leftAugend {a b rhs} : a.isTarget target = true →
      Moves target .leftAugend ⟨.binary .add a b, rhs⟩ ⟨a, .binary .sub rhs b⟩
  | leftAddend {a b rhs} : b.isTarget target = true →
      Moves target .leftAddend ⟨.binary .add a b, rhs⟩ ⟨b, .binary .sub rhs a⟩
  | rightAugend {a b lhs} : a.isTarget target = true →
      Moves target .rightAugend ⟨lhs, .binary .add a b⟩ ⟨.binary .sub lhs a, b⟩
  | rightAddend {a b lhs} : b.isTarget target = true →
      Moves target .rightAddend ⟨lhs, .binary .add a b⟩ ⟨.binary .sub lhs b, a⟩
  | leftMinuend {a b rhs} : a.isTarget target = true →
      Moves target .leftMinuend ⟨.binary .sub a b, rhs⟩ ⟨a, .binary .add rhs b⟩
  | leftSubtrahend {a b rhs} : b.isTarget target = true →
      Moves target .leftSubtrahend ⟨.binary .sub a b, rhs⟩ ⟨b, .binary .add (.negate rhs) a⟩
  | rightMinuend {a b lhs} : a.isTarget target = true →
      Moves target .rightMinuend ⟨lhs, .binary .sub a b⟩ ⟨.binary .sub lhs a, .negate b⟩
  | rightSubtrahend {a b lhs} : b.isTarget target = true →
      Moves target .rightSubtrahend ⟨lhs, .binary .sub a b⟩ ⟨.binary .add lhs b, a⟩
  | negated {a rhs} : a.isTarget target = true →
      Moves target .negated ⟨.negate a, rhs⟩ ⟨a, .negate rhs⟩
  | scaled {m rhs} : m.var = target →
      Moves target .scaled ⟨.monomial m, rhs⟩
        ⟨.monomial { m with coefficient := Scalar.natural 1 },
          .binary .div rhs (.number m.coefficient)⟩

theorem moves_of_fromLeftSum? (h : e.fromLeftSum? target = some (t, e')) :
    Moves target t e e' := by
  unfold fromLeftSum? at h
  split at h
  · split at h; · cases h; exact .leftAugend ‹_›
    split at h; · cases h; exact .leftAddend ‹_›
    cases h
  · cases h

theorem moves_of_fromRightSum? (h : e.fromRightSum? target = some (t, e')) :
    Moves target t e e' := by
  unfold fromRightSum? at h
  split at h
  · split at h; · cases h; exact .rightAugend ‹_›
    split at h; · cases h; exact .rightAddend ‹_›
    cases h
  · cases h

theorem moves_of_fromLeftDifference? (h : e.fromLeftDifference? target = some (t, e')) :
    Moves target t e e' := by
  unfold fromLeftDifference? at h
  split at h
  · split at h; · cases h; exact .leftMinuend ‹_›
    split at h; · cases h; exact .leftSubtrahend ‹_›
    cases h
  · cases h

theorem moves_of_fromRightDifference? (h : e.fromRightDifference? target = some (t, e')) :
    Moves target t e e' := by
  unfold fromRightDifference? at h
  split at h
  · split at h; · cases h; exact .rightMinuend ‹_›
    split at h; · cases h; exact .rightSubtrahend ‹_›
    cases h
  · cases h

theorem moves_of_fromNegation? (h : e.fromNegation? target = some (t, e')) :
    Moves target t e e' := by
  unfold fromNegation? at h
  split at h
  · split at h; · cases h; exact .negated ‹_›
    cases h
  · cases h

theorem moves_of_fromCoefficient? (h : e.fromCoefficient? target = some (t, e')) :
    Moves target t e e' := by
  unfold fromCoefficient? at h
  split at h
  · split at h; · cases h; exact .scaled ‹_›
    cases h
  · cases h

/-- A transposition that is found is one of the constructors. -/
theorem moves_of_transpose? (h : e.transpose? target = some (t, e')) : Moves target t e e' := by
  unfold transpose? at h
  simp only [Option.orElse_eq_orElse, Option.orElse_eq_or, Option.or_eq_some_iff] at h
  rcases h with h | ⟨-, h | ⟨-, h | ⟨-, h | ⟨-, h | ⟨-, h⟩⟩⟩⟩⟩
  · exact moves_of_fromLeftSum? h
  · exact moves_of_fromRightSum? h
  · exact moves_of_fromLeftDifference? h
  · exact moves_of_fromRightDifference? h
  · exact moves_of_fromNegation? h
  · exact moves_of_fromCoefficient? h

/-! ## What is not found does not apply -/

/-- Where none is found, none applies. -/
theorem not_moves_of_transpose?_eq_none (h : e.transpose? target = none) :
    ¬ Moves target t e e' := by
  simp only [transpose?, Option.orElse_eq_orElse, Option.orElse_eq_or, Option.or_eq_none_iff] at h
  obtain ⟨h1, h2, h3, h4, h5, h6⟩ := h
  intro hm
  cases hm with
  | leftAugend ha => simp [fromLeftSum?, ha] at h1
  | @leftAddend a b rhs hb => cases ha : a.isTarget target <;> simp [fromLeftSum?, ha, hb] at h1
  | rightAugend ha => simp [fromRightSum?, ha] at h2
  | @rightAddend a b lhs hb => cases ha : a.isTarget target <;> simp [fromRightSum?, ha, hb] at h2
  | leftMinuend ha => simp [fromLeftDifference?, ha] at h3
  | @leftSubtrahend a b rhs hb =>
    cases ha : a.isTarget target <;> simp [fromLeftDifference?, ha, hb] at h3
  | rightMinuend ha => simp [fromRightDifference?, ha] at h4
  | @rightSubtrahend a b lhs hb =>
    cases ha : a.isTarget target <;> simp [fromRightDifference?, ha, hb] at h4
  | negated ha => simp [fromNegation?, ha] at h5
  | scaled hm => simp [fromCoefficient?, hm] at h6

/-- Dividing by a coefficient comes last. -/
theorem eq_scaled_of_transpose? (h : e.transpose? target = some (.scaled, a))
    (hm : Moves target t e e') : t = .scaled := by
  cases moves_of_transpose? h with
  | scaled _ =>
    cases hm with
    | rightAugend ha => simp [transpose?, fromLeftSum?, fromRightSum?, ha] at h
    | @rightAddend a b lhs hb =>
      cases ha : a.isTarget target <;>
        simp [transpose?, fromLeftSum?, fromRightSum?, ha, hb] at h
    | rightMinuend ha =>
      simp [transpose?, fromLeftSum?, fromRightSum?, fromLeftDifference?, fromRightDifference?,
        ha] at h
    | @rightSubtrahend a b lhs hb =>
      cases ha : a.isTarget target <;>
        simp [transpose?, fromLeftSum?, fromRightSum?, fromLeftDifference?, fromRightDifference?,
          ha, hb] at h
    | scaled _ => rfl
end SymbolicAlgebra.Equation
