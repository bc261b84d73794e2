import SymbolicAlgebra.Proofs.Equation.Limit
import SymbolicAlgebra.Proofs.Reading.Soundness
import SymbolicAlgebra.Session

/-!
# How solving a text can end

A text that is read as an equation has its only `=` at the root: the sides are
phrases, and no phrase spells an `=`. From there on nothing brings an `=` into
a side, so folding has none to fail at, and each step gives an equation again.
What is left are the errors of reading and the ceiling. As no rule and no
transposition makes a name either, the result is built from the names that were
read.

Results:
* `Derives.equalityFree`: no phrase spells a tree with an `=`.
* `Equation.equalityFree_of_ofText`: nor has a side of an equation that is read.
* `Session.solveText_outcome_cases`: solving a text is refused as the text is
  read, stops at the ceiling, or gives an equation with no other `=` and with no
  new name.
-/
namespace SymbolicAlgebra

variable {α : Type} [Scalar α] [Numeral α]

/-- No phrase spells a tree with an `=`. -/
theorem Derives.equalityFree {p : Phrase} {ts rest : List Token} {e : Expr α}
    (h : Derives p ts e rest) : e.EqualityFree := by
  induction h with
  | product _ ih | power _ ih | signed _ ih | primary _ ih | monomial _ ih => exact ih
  | additive hop _ _ ihl ihr =>
    exact Expr.equalityFree_binary.mpr ⟨hop.ne_equals, ihl, ihr⟩
  | multiplicative hop _ _ ihl ihr =>
    exact Expr.equalityFree_binary.mpr ⟨hop.ne_equals, ihl, ihr⟩
  | raised _ _ ihl ihr => exact Expr.equalityFree_binary.mpr ⟨by decide, ihl, ihr⟩
  | negated _ ih => exact Expr.forall_subtrees_negate.mpr ⟨rfl, ih⟩
  | number => exact Expr.forall_subtrees_number.mpr rfl
  | constant => exact Expr.forall_subtrees_constant.mpr rfl
  | parenthesized _ ih | closedCall _ ih => exact ih
  | emptyCall => exact Expr.forall_subtrees_call.mpr ⟨rfl, by simp⟩
  | firstArgument _ _ ih =>
    exact Expr.forall_subtrees_call.mpr ⟨rfl, List.forall_mem_singleton.mpr ih⟩
  | nextArgument _ _ ihcall ih =>
    obtain ⟨-, hargs⟩ := Expr.forall_subtrees_call.mp ihcall
    exact Expr.forall_subtrees_call.mpr
      ⟨rfl, List.forall_mem_append.mpr ⟨hargs, List.forall_mem_singleton.mpr ih⟩⟩
  | «variable» | variablePower => exact Expr.forall_subtrees_monomial.mpr rfl

namespace Equation

/-- A side that is read has no `=`. -/
theorem equalityFree_of_side {ts : List Token} {e : Expr α} (h : side ts = .ok e) :
    e.EqualityFree := by
  unfold side at h
  split at h
  · cases h
  · exact (Expr.derives_of_ofTokens h).equalityFree

/-- An equation that is read has no `=` in its sides. -/
theorem equalityFree_of_ofText {text : String} {e : Equation α} (h : ofText text = .ok e) :
    EqualityFree e := by
  obtain ⟨ts, -, h⟩ := except_bind_eq_ok.mp h
  unfold ofTokens at h
  split at h
  · cases h
  · simp only [except_bind_eq_ok] at h
    obtain ⟨lhs, hl, rhs, hr, he⟩ := h
    cases he
    exact ⟨equalityFree_of_side hl, equalityFree_of_side hr⟩
  · cases h

omit [Numeral α] in
/-- What isolating gives has no symbol that the equation has not. -/
theorem symbols_subset_of_isolate {target : String} {ceiling : Nat} {e r : Equation α}
    (h : (isolate target ceiling e).outcome = .ok r) : r.toExpr.symbols ⊆ e.toExpr.symbols := by
  intro s hs
  have hmarks := Expr.marks_symbol (α := α) s
  have hle := (visits_of_isolate h).count_le hmarks
  have hroot : ∀ a : Equation α,
      Expr.count (fun e => e.symbol? = some s) a.toExpr = count (fun e => e.symbol? = some s) a :=
    fun a => Expr.count_binary_eq .equals a.lhs a.rhs
  rw [Expr.mem_symbols_iff_count, hroot] at hs ⊢
  exact Nat.lt_of_lt_of_le hs hle

end Equation

namespace Session

/-- Solving a text reads it and isolates the target in what was read. -/
theorem solveText_outcome (s : Session) (text target : String) :
    (s.solveText text target : Work α (Expr α)).outcome =
      ((Equation.ofText text).mapError .reading >>= fun e : Equation α =>
        ((e.isolate target s.ceiling).outcome.map Equation.toExpr).mapError .rewriting) := by
  simp only [solveText, readEquation, solve, Rewriting.work, Attempt.outcome_bind,
    Attempt.outcome_ofExcept, Attempt.outcome_note, Attempt.outcome_mapError, bind_assoc,
    pure_bind, Equation.isolate_toExpr_outcome]

/-- Solving a text is refused for what is wrong with the text, or the text is an equation. Then
solving it stops at the ceiling, or it gives an equation. This one has no `=` but the one at its
root, and every variable, constant and function in it stands in the equation that was read. -/
theorem solveText_outcome_cases (s : Session) (text target : String) :
    (∃ error, Equation.ofText (α := α) text = .error error ∧
      (s.solveText text target : Work α (Expr α)).outcome = .error (.reading error)) ∨
    ∃ e : Equation α, Equation.ofText text = .ok e ∧
      ((s.solveText text target : Work α (Expr α)).outcome =
          .error (.rewriting (.unsettled s.ceiling)) ∨
        ∃ r : Equation α, (s.solveText text target : Work α (Expr α)).outcome = .ok r.toExpr ∧
          r.lhs.EqualityFree ∧ r.rhs.EqualityFree ∧ r.toExpr.symbols ⊆ e.toExpr.symbols) := by
  rw [solveText_outcome]
  cases hread : Equation.ofText (α := α) text with
  | error error => exact .inl ⟨error, rfl, rfl⟩
  | ok e =>
    refine .inr ⟨e, rfl, ?_⟩
    have hfree := Equation.equalityFree_of_ofText hread
    rcases Equation.isolate_eq_error_or_ok target s.ceiling hfree with herror | ⟨r, hr⟩
    · left
      show ((e.isolate target s.ceiling).outcome.map Equation.toExpr).mapError _ = _
      rw [herror]
      rfl
    · have hcount := (Equation.visits_of_isolate hr).count_le Expr.marks_isEquation
      rw [Equation.equalityFree_iff_count.mp hfree] at hcount
      have hfree' := Equation.equalityFree_iff_count.mpr (Nat.le_zero.mp hcount)
      refine .inr ⟨r, ?_, hfree'.lhs, hfree'.rhs, Equation.symbols_subset_of_isolate hr⟩
      show ((e.isolate target s.ceiling).outcome.map Equation.toExpr).mapError _ = _
      rw [hr]
      rfl

end Session
end SymbolicAlgebra
