import SymbolicAlgebra.Proofs.Exact.Simplify
import SymbolicAlgebra.Proofs.Exact.Transposition

/-!
# Isolating a variable keeps the solutions

A transposition loses or gains a solution only where it divides by a
coefficient of zero. But both sides have been simplified before, and a
simplified side is no monomial with the coefficient zero.

Results:
* `tracks_of_visits`: every equation that isolating goes through holds where the
  first one does.
* `isolate_holds_iff`: the result holds at an assignment exactly if the input
  does, and no iteration divides by zero.
-/
namespace SymbolicAlgebra.Interpretation

variable {K : Type} [Field K] [LinearOrder K] [PartialPower K]

/-- Both sides have values, and they are equal. -/
def Holds (I : Interpretation K) (e : Equation (Exact K)) : Prop :=
  ∃ v, I.value e.lhs = some v ∧ I.value e.rhs = some v

variable {I : Interpretation K} {e e' s : Equation (Exact K)} {u v : K}
variable {target : String} {ceiling : Nat} {t : Transposition}

theorem holds_iff (hl : I.value e.lhs = some u) (hr : I.value e.rhs = some v) :
    I.Holds e ↔ u = v := by
  constructor
  · intro h
    obtain ⟨w, hlw, hrw⟩ := h
    rw [hl] at hlw
    rw [hr] at hrw
    exact (Option.some.inj hlw).trans (Option.some.inj hrw).symm
  · intro h
    subst h
    exact ⟨u, hl, hr⟩

variable [FloorRing K]

/-! ## One transposition -/

/-- A transposition keeps both sides tame. -/
theorem tame_of_moves (h : Equation.Moves target t e e') (hl : I.Tame e.lhs) (hr : I.Tame e.rhs) :
    I.Tame e'.lhs ∧ I.Tame e'.rhs := by
  cases h with
  | leftAugend _ | leftMinuend _ =>
    obtain ⟨-, ha, hb⟩ := tame_binary.mp hl
    exact ⟨ha, tame_binary.mpr ⟨trivial, hr, hb⟩⟩
  | leftAddend _ =>
    obtain ⟨-, ha, hb⟩ := tame_binary.mp hl
    exact ⟨hb, tame_binary.mpr ⟨trivial, hr, ha⟩⟩
  | rightAugend _ =>
    obtain ⟨-, ha, hb⟩ := tame_binary.mp hr
    exact ⟨tame_binary.mpr ⟨trivial, hl, ha⟩, hb⟩
  | rightAddend _ | rightSubtrahend _ =>
    obtain ⟨-, ha, hb⟩ := tame_binary.mp hr
    exact ⟨tame_binary.mpr ⟨trivial, hl, hb⟩, ha⟩
  | leftSubtrahend _ =>
    obtain ⟨-, ha, hb⟩ := tame_binary.mp hl
    exact ⟨hb, tame_binary.mpr ⟨trivial, tame_negate.mpr hr, ha⟩⟩
  | rightMinuend _ =>
    obtain ⟨-, ha, hb⟩ := tame_binary.mp hr
    exact ⟨tame_binary.mpr ⟨trivial, hl, ha⟩, tame_negate.mpr hb⟩
  | negated _ => exact ⟨tame_negate.mp hl, tame_negate.mpr hr⟩
  | scaled _ => exact ⟨tame_rescaled _ hl, tame_binary.mpr ⟨trivial, hr, tame_number⟩⟩

/-! ## Whole runs -/

/-- A side that no rule applies to is no monomial with the coefficient zero. -/
theorem coefficient_ne_zero {e : Expr (Exact K)} {m : Monomial (Exact K)}
    (hp : Expr.pass target e = pure e) (hm : e = .monomial m) : m.coefficient.get? ≠ some 0 := by
  intro hzero
  have hroot := Expr.pass_eq_pure_iff.mp hp e (Expr.self_mem_subtrees e)
  rw [hm] at hroot
  have hc : Scalar.eqv m.coefficient (Scalar.natural 0) = true := by
    rw [Exact.eqv_natural, hzero, Nat.cast_zero]
  exact Expr.not_contracts hroot (.zeroCoefficient hc)

/-- What isolating keeps of an equation: both sides are tame and have values, which are equal
exactly if `p` holds. -/
structure Tracks (I : Interpretation K) (p : Prop) (e : Equation (Exact K)) : Prop where
  tame_lhs : I.Tame e.lhs
  tame_rhs : I.Tame e.rhs
  values : ∃ u v, I.value e.lhs = some u ∧ I.value e.rhs = some v ∧ (u = v ↔ p)

theorem Tracks.holds_iff {p : Prop} (h : I.Tracks p e) : I.Holds e ↔ p := by
  obtain ⟨u, v, hl, hr, huv⟩ := h.values
  exact (Interpretation.holds_iff hl hr).trans huv

/-- Moving a term keeps what is tracked, unless it divides by zero. -/
theorem Tracks.transpose {p : Prop} (target : String) (h : I.Tracks p e)
    (hzero : ∀ m, e.lhs = .monomial m → m.coefficient.get? ≠ some 0) :
    I.Tracks p (Equation.transpose target e).value := by
  rcases Equation.transpose_value target e with heq | ⟨t, hmoves⟩
  · rw [heq]; exact h
  · obtain ⟨u, v, hl, hr, huv⟩ := h.values
    obtain ⟨htl, htr⟩ := tame_of_moves hmoves h.tame_lhs h.tame_rhs
    obtain ⟨u', v', hl', hr', huv'⟩ :=
      I.valuation.values_of_moves hmoves (fun _ => hzero) hl hr
    exact ⟨htl, htr, u', v', hl', hr', huv'.trans huv⟩

variable [IsStrictOrderedRing K]

/-- Simplifying both sides keeps what is tracked, and no rule applies to them then. -/
theorem Tracks.normalize {p : Prop} (h : I.Tracks p e)
    (hs : (Equation.normalize target ceiling e).outcome = .ok s) :
    I.Tracks p s ∧ Expr.pass target s.lhs = pure s.lhs := by
  obtain ⟨hls, hrs⟩ := Equation.normalize_eq_ok hs
  obtain ⟨u, v, hl, hr, huv⟩ := h.values
  obtain ⟨htl, hvl, hpl⟩ := simplify_tame h.tame_lhs hl hls
  obtain ⟨htr, hvr, -⟩ := simplify_tame h.tame_rhs hr hrs
  exact ⟨⟨htl, htr, u, v, hvl, hvr, huv⟩, hpl⟩

/-- Every visited equation holds exactly if the first one does, and no rule applies to its left
side. -/
theorem tracks_of_visits {p : Prop} (h : I.Tracks p e) (hs : e.Visits target ceiling s) :
    I.Tracks p s ∧ Expr.pass target s.lhs = pure s.lhs := by
  induction hs with
  | start hnorm => exact h.normalize hnorm
  | next _ hnorm ih =>
    have hmoved := ih.1.transpose target fun m hm => coefficient_ne_zero ih.2 hm
    exact hmoved.normalize hnorm

/-- If an equation takes no remainder, has only positive exponents in its monomials and has sides
with values at an assignment where none of its bases is zero, then isolating a variable keeps
whether it holds there, and each iteration that divides by a coefficient divides by a number other
than zero. -/
theorem isolate_holds_iff (hrem : ∀ l r, .binary .mod l r ∉ e.toExpr.subtrees)
    (hexp : ∀ m, .monomial m ∈ e.toExpr.subtrees → ∃ x, m.exponent.get? = some x ∧ 0 < x)
    (hbase : ∀ b x, .binary .pow b x ∈ e.toExpr.subtrees → I.value b ≠ some 0)
    (hl : I.value e.lhs = some u) (hr : I.value e.rhs = some v) :
    (∀ r, (e.toExpr.isolate target ceiling).outcome = .ok r →
      ∃ s, r = s.toExpr ∧ (I.Holds e ↔ I.Holds s)) ∧
    ∀ s s', e.Visits target ceiling s → s.transpose? target = some (.scaled, s') →
      ∃ m c, s.lhs = .monomial m ∧ s'.rhs = .binary .div s.rhs (.number m.coefficient) ∧
        m.coefficient.get? = some c ∧ c ≠ 0 := by
  have htame : I.Tame e.toExpr := tame_of_nonzero_bases hrem hexp hbase
  obtain ⟨-, htl, htr⟩ := tame_binary.mp htame
  have htracks : I.Tracks (I.Holds e) e := ⟨htl, htr, u, v, hl, hr, (holds_iff hl hr).symm⟩
  constructor
  · intro r h
    obtain ⟨s, rfl, hs⟩ := Equation.isolate_toExpr_eq_ok h
    exact ⟨s, rfl, (tracks_of_visits htracks (Equation.visits_of_isolate hs)).1.holds_iff.symm⟩
  · intro s s' hvisits hscaled
    obtain ⟨hs, hp⟩ := tracks_of_visits htracks hvisits
    obtain ⟨a, b, ha, -, -⟩ := hs.values
    cases Equation.moves_of_transpose? hscaled with
    | @scaled m rhs hm =>
      obtain ⟨c, x, p, hc, -, -, -⟩ := value_monomial.mp ha
      refine ⟨m, c, rfl, rfl, hc, ?_⟩
      intro h0
      rw [h0] at hc
      exact coefficient_ne_zero hp rfl hc

/-- `2 * x + 4 = y` at `x = 1` and `y = 6`, solved for `x`. -/
theorem isolate_holds_iff_linear :
    let I : Interpretation ℚ := ⟨fun name => if name = "x" then 1 else 6, fun _ _ => none,
      fun _ _ => none⟩
    let x : Expr (Exact ℚ) := .monomial ⟨⟨some 1⟩, "x", ⟨some 1⟩⟩
    let y : Expr (Exact ℚ) := .monomial ⟨⟨some 1⟩, "y", ⟨some 1⟩⟩
    let e : Equation (Exact ℚ) := ⟨.binary .add (.binary .mul (.literal 2) x) (.literal 4), y⟩
    let s : Equation (Exact ℚ) := ⟨x, .binary .div (.binary .sub y (.literal 4)) (.literal 2)⟩
    (e.toExpr.isolate "x" 4).outcome = .ok s.toExpr ∧ (I.Holds e ↔ I.Holds s) := by
  intro I x y e s
  have hs : (e.toExpr.isolate "x" 4).outcome = .ok s.toExpr := eq_ok_of_same (by decide +kernel)
  have hl : I.value e.lhs = some 6 := by decide +kernel
  have hr : I.value e.rhs = some 6 := by decide +kernel
  have hrem : ∀ l r, .binary .mod l r ∉ e.toExpr.subtrees := by
    intro l r h
    simp [e, x, y, Equation.toExpr, Expr.subtrees, Expr.literal] at h
  have hexp : ∀ m, .monomial m ∈ e.toExpr.subtrees → ∃ z, m.exponent.get? = some z ∧ 0 < z := by
    intro m h
    have hm : m = ⟨⟨some 1⟩, "x", ⟨some 1⟩⟩ ∨ m = ⟨⟨some 1⟩, "y", ⟨some 1⟩⟩ := by
      simpa [e, x, y, Equation.toExpr, Expr.subtrees, Expr.literal] using h
    rcases hm with rfl | rfl <;> exact ⟨1, rfl, one_pos⟩
  have hbase : ∀ b z, .binary .pow b z ∈ e.toExpr.subtrees → I.value b ≠ some 0 := by
    intro b z h
    simp [e, x, y, Equation.toExpr, Expr.subtrees, Expr.literal] at h
  obtain ⟨s', hs', hiff⟩ := (isolate_holds_iff hrem hexp hbase hl hr).1 _ hs
  have heq : s = s' := Option.some.inj (congrArg Equation.ofExpr? hs')
  rw [← heq] at hiff
  exact ⟨hs, hiff⟩

end SymbolicAlgebra.Interpretation
