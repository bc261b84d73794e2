import SymbolicAlgebra.Proofs.Equation.Isolate
import SymbolicAlgebra.Proofs.Exact.Value

/-!
# One transposition keeps the solutions

Moving a term looks at the roots of both sides and at the operands there. What
stands further down is moved as it is, so that a solution is kept whatever it
means. A `Valuation` therefore says what literals, monomials, negations, sums,
differences and quotients are worth, and leaves all other trees arbitrary: a
call, a remainder, a product, a power or an equation inside a side may have any
value or none, and need not even depend on its operands.

The sides of the result are worth something wherever those of the equation are,
and they are equal exactly where those are. The one exception is the division
by a coefficient of zero.

Results:
* `Valuation.values_of_moves`: each transposition keeps whether the sides are
  equal.
* `Valuation.transpose_equivalent`: so does the one that is chosen, or the
  equation stays as it is.
-/
namespace SymbolicAlgebra

variable {K : Type} [Field K] [LinearOrder K]

/-- Values of trees. Operations have them where their operands do, and quotients besides where the
divisor is not zero. Trees with another root have any value or none. -/
structure Valuation (K : Type) [Field K] [LinearOrder K] where
  value : Expr (Exact K) → Option K
  /-- The value of a variable with an exponent. -/
  power : String → Exact K → Option K
  value_number : ∀ {x}, value (.number x) = x.get?
  value_monomial : ∀ {m v}, value (.monomial m) = some v ↔
    ∃ c p, m.coefficient.get? = some c ∧ power m.var m.exponent = some p ∧ c * p = v
  value_negate : ∀ {e v}, value (.negate e) = some v ↔ ∃ a, value e = some a ∧ -a = v
  value_add : ∀ {l r v}, value (.binary .add l r) = some v ↔
    ∃ a b, value l = some a ∧ value r = some b ∧ a + b = v
  value_sub : ∀ {l r v}, value (.binary .sub l r) = some v ↔
    ∃ a b, value l = some a ∧ value r = some b ∧ a - b = v
  value_div : ∀ {l r v}, value (.binary .div l r) = some v ↔
    ∃ a b, value l = some a ∧ value r = some b ∧ b ≠ 0 ∧ a / b = v

/-- An interpretation gives trees their values. -/
def Interpretation.valuation [PartialPower K] (I : Interpretation K) : Valuation K where
  value := I.value
  power name x := x.get?.bind (PartialPower.power? (I.assignment name))
  value_number := Interpretation.value_number
  value_monomial := by
    intro m v
    simp only [Interpretation.value_monomial, Option.bind_eq_some_iff]
    constructor
    · intro h
      obtain ⟨c, x, p, hc, hx, hp, hv⟩ := h
      exact ⟨c, p, hc, ⟨x, hx, hp⟩, hv⟩
    · intro h
      obtain ⟨c, p, hc, ⟨x, hx, hp⟩, hv⟩ := h
      exact ⟨c, x, p, hc, hx, hp, hv⟩
  value_negate := Interpretation.value_negate
  value_add := Interpretation.value_add
  value_sub := Interpretation.value_sub
  value_div := Interpretation.value_div

namespace Valuation

variable [FloorRing K] [PartialPower K] {V : Valuation K} {e e' : Equation (Exact K)} {u v : K}
variable {target : String} {t : Transposition}

/-- A transposition takes an equation whose sides have values to one whose sides have values, and
keeps whether they are equal. -/
theorem values_of_moves (h : Equation.Moves target t e e')
    (hzero : t = .scaled → ∀ m, e.lhs = .monomial m → m.coefficient.get? ≠ some 0)
    (hl : V.value e.lhs = some u) (hr : V.value e.rhs = some v) :
    ∃ u' v', V.value e'.lhs = some u' ∧ V.value e'.rhs = some v' ∧ (u' = v' ↔ u = v) := by
  cases h with
  | leftAugend _ =>
    obtain ⟨a, b, ha, hb, rfl⟩ := V.value_add.mp hl
    exact ⟨a, v - b, ha, V.value_sub.mpr ⟨v, b, hr, hb, rfl⟩, eq_sub_iff_add_eq⟩
  | leftAddend _ =>
    obtain ⟨a, b, ha, hb, rfl⟩ := V.value_add.mp hl
    exact ⟨b, v - a, hb, V.value_sub.mpr ⟨v, a, hr, ha, rfl⟩, eq_sub_iff_add_eq'⟩
  | rightAugend _ =>
    obtain ⟨a, b, ha, hb, rfl⟩ := V.value_add.mp hr
    exact ⟨u - a, b, V.value_sub.mpr ⟨u, a, hl, ha, rfl⟩, hb, sub_eq_iff_eq_add'⟩
  | rightAddend _ =>
    obtain ⟨a, b, ha, hb, rfl⟩ := V.value_add.mp hr
    exact ⟨u - b, a, V.value_sub.mpr ⟨u, b, hl, hb, rfl⟩, ha, sub_eq_iff_eq_add⟩
  | leftMinuend _ =>
    obtain ⟨a, b, ha, hb, rfl⟩ := V.value_sub.mp hl
    exact ⟨a, v + b, ha, V.value_add.mpr ⟨v, b, hr, hb, rfl⟩, sub_eq_iff_eq_add.symm⟩
  | leftSubtrahend _ =>
    obtain ⟨a, b, ha, hb, rfl⟩ := V.value_sub.mp hl
    have hneg := V.value_negate.mpr ⟨v, hr, rfl⟩
    refine ⟨b, -v + a, hb, V.value_add.mpr ⟨-v, a, hneg, ha, rfl⟩, ?_⟩
    rw [eq_neg_add_iff_add_eq, sub_eq_iff_eq_add, eq_comm]
  | rightMinuend _ =>
    obtain ⟨a, b, ha, hb, rfl⟩ := V.value_sub.mp hr
    refine ⟨u - a, -b, V.value_sub.mpr ⟨u, a, hl, ha, rfl⟩, V.value_negate.mpr ⟨b, hb, rfl⟩, ?_⟩
    rw [sub_eq_iff_eq_add', ← sub_eq_add_neg]
  | rightSubtrahend _ =>
    obtain ⟨a, b, ha, hb, rfl⟩ := V.value_sub.mp hr
    exact ⟨u + b, a, V.value_add.mpr ⟨u, b, hl, hb, rfl⟩, ha, eq_sub_iff_add_eq.symm⟩
  | negated _ =>
    obtain ⟨a, ha, rfl⟩ := V.value_negate.mp hl
    exact ⟨a, -v, ha, V.value_negate.mpr ⟨v, hr, rfl⟩, eq_neg_iff_add_eq_zero.trans (by
      rw [neg_eq_iff_add_eq_zero])⟩
  | @scaled m rhs _ =>
    obtain ⟨c, p, hc, hp, rfl⟩ := V.value_monomial.mp hl
    have hc0 : c ≠ 0 := by
      intro h0
      rw [h0] at hc
      exact hzero rfl m rfl hc
    have hone : V.value (.monomial { m with coefficient := Scalar.natural 1 }) = some (1 * p) :=
      V.value_monomial.mpr ⟨1, p, congrArg some Nat.cast_one, hp, rfl⟩
    have hdivisor : V.value (.number m.coefficient) = some c := V.value_number.trans hc
    refine ⟨1 * p, v / c, hone, V.value_div.mpr ⟨v, c, hr, hdivisor, hc0, rfl⟩, ?_⟩
    rw [one_mul, eq_div_iff hc0, mul_comm p c]

/-- Transposing an equation whose sides have values gives an equation whose sides have values, and
they are equal exactly if those were, unless it divides by a coefficient of zero. -/
theorem transpose_equivalent (V : Valuation K) (target : String) {e : Equation (Exact K)} {u v : K}
    (hzero : ∀ m e', e.lhs = .monomial m → e.transpose? target = some (.scaled, e') →
      m.coefficient.get? ≠ some 0)
    (hl : V.value e.lhs = some u) (hr : V.value e.rhs = some v) :
    ∃ s : Equation (Exact K), (e.toExpr.transpose target).outcome = .ok s.toExpr ∧
      ∃ u' v', V.value s.lhs = some u' ∧ V.value s.rhs = some v' ∧ (u' = v' ↔ u = v) := by
  refine ⟨(Equation.transpose target e).value, rfl, ?_⟩
  unfold Equation.transpose
  cases hstep : e.transpose? target with
  | none => exact ⟨u, v, hl, hr, Iff.rfl⟩
  | some step =>
    obtain ⟨t, e'⟩ := step
    refine values_of_moves (Equation.moves_of_transpose? hstep) (fun ht m hm => ?_) hl hr
    rw [ht] at hstep
    exact hzero m e' hm hstep

/-- `3 * x ^ 2 = f(14 % y)` is divided by `3`. At `x = 2` both sides are `12`. -/
theorem transpose_equivalent_scaled :
    let I : Interpretation ℚ := ⟨fun _ => 2, fun _ as => as.head?.map (· * 6), fun _ b => some b⟩
    let square (c : ℚ) : Expr (Exact ℚ) := .monomial ⟨⟨some c⟩, "x", ⟨some 2⟩⟩
    let y : Expr (Exact ℚ) := .monomial ⟨⟨some 1⟩, "y", ⟨some 1⟩⟩
    let f : Expr (Exact ℚ) := .call "f" [.binary .mod (.literal 14) y]
    let e : Equation (Exact ℚ) := ⟨square 3, f⟩
    let s : Equation (Exact ℚ) := ⟨square 1, .binary .div f (.literal 3)⟩
    I.value e.lhs = some 12 ∧ I.value e.rhs = some 12 ∧
      (e.toExpr.transpose "x").outcome = .ok s.toExpr ∧
      ∃ v, I.value s.lhs = some v ∧ I.value s.rhs = some v := by
  intro I square y f e s
  have hl : I.value e.lhs = some 12 := by decide +kernel
  have hr : I.value e.rhs = some 12 := by decide +kernel
  have hzero : ∀ m e', e.lhs = .monomial m → e.transpose? "x" = some (.scaled, e') →
      m.coefficient.get? ≠ some 0 := by
    intro m e' hm _
    cases hm
    decide +kernel
  obtain ⟨s', hs', u', v', hl', hr', hiff⟩ := transpose_equivalent I.valuation "x" hzero hl hr
  have hs : (e.toExpr.transpose "x").outcome = .ok s.toExpr := rfl
  obtain rfl : s = s' :=
    Option.some.inj (congrArg Equation.ofExpr? (Except.ok.inj (hs.symm.trans hs')))
  obtain rfl : u' = v' := hiff.mpr rfl
  exact ⟨hl, hr, hs, u', hl', hr'⟩

end Valuation
end SymbolicAlgebra
