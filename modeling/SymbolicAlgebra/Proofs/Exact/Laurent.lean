import SymbolicAlgebra.Proofs.Exact.QuotientFree

/-!
# Laurent polynomials

Sums, differences, products and negations of numbers and of monomials with
integral exponents, zero and negative ones included, have a value wherever no
variable is zero. Products of monomials add exponents, sums combine
coefficients, and what comes of it becomes a number in a later round where the
coefficient or the exponent is zero. The last step is the one that needs care:
a monomial with the exponent zero becomes `1`, and that is its value only if its
coefficient is one.

Results:
* `exists_value_laurent`: a Laurent polynomial has a value where no variable is
  zero.
* `simplify_laurent`: the simplifier keeps it, as long as no round starts with a
  monomial with the exponent zero and a coefficient other than zero and one.
* `simplify_constant_monomial`: without that it need not.
-/
namespace SymbolicAlgebra

namespace Expr

variable {K : Type} [Field K] [LinearOrder K] [FloorRing K] [PartialPower K]

/-- Sums, differences, products and negations of numbers and of monomials with integral
exponents. -/
def Laurent : Expr (Exact K) → Prop
  | .number x => ∃ a, x.get? = some a
  | .monomial m => (∃ c, m.coefficient.get? = some c) ∧ ∃ n : ℤ, m.exponent.get? = some (n : K)
  | .negate e => Laurent e
  | .binary .add l r | .binary .sub l r | .binary .mul l r => Laurent l ∧ Laurent r
  | _ => False

theorem Laurent.quotientFree {e : Expr (Exact K)} (h : Laurent e) : QuotientFree e := by
  induction e with
  | number _ | monomial _ => trivial
  | negate e ih => exact ih h
  | binary op l r ihl ihr =>
    cases op with
    | add | sub | mul => exact ⟨trivial, ihl h.1, ihr h.2⟩
    | _ => cases h
  | call _ _ | constant _ _ => cases h

end Expr

namespace Interpretation

open SymbolicAlgebra.Expr (Laurent Visits)

variable {K : Type} [Field K] [LinearOrder K] [FloorRing K] [PartialPower K]
variable {f : String → K} {t r : Expr (Exact K)}

/-- A Laurent polynomial has a value where no variable is zero. -/
theorem exists_value_laurent (hf : ∀ name, f name ≠ 0) (h : Laurent t) :
    ∃ v, (ofAssignment f).value t = some v := by
  induction t with
  | number x =>
    obtain ⟨a, ha⟩ := h
    exact ⟨a, ha⟩
  | monomial m =>
    obtain ⟨⟨c, hc⟩, n, hn⟩ := h
    exact ⟨_, value_monomial.mpr ⟨c, n, _, hc, hn, PartialPower.power?_intCast (hf m.var) n, rfl⟩⟩
  | negate e ih =>
    obtain ⟨a, ha⟩ := ih h
    exact ⟨-a, value_negate.mpr ⟨a, ha, rfl⟩⟩
  | binary op l r ihl ihr =>
    cases op with
    | add =>
      obtain ⟨⟨a, ha⟩, ⟨b, hb⟩⟩ := And.intro (ihl h.1) (ihr h.2)
      exact ⟨a + b, value_add.mpr ⟨a, b, ha, hb, rfl⟩⟩
    | sub =>
      obtain ⟨⟨a, ha⟩, ⟨b, hb⟩⟩ := And.intro (ihl h.1) (ihr h.2)
      exact ⟨a - b, value_sub.mpr ⟨a, b, ha, hb, rfl⟩⟩
    | mul =>
      obtain ⟨⟨a, ha⟩, ⟨b, hb⟩⟩ := And.intro (ihl h.1) (ihr h.2)
      exact ⟨a * b, value_mul.mpr ⟨a, b, ha, hb, rfl⟩⟩
    | _ => cases h
  | call _ _ | constant _ _ => cases h

variable [IsStrictOrderedRing K] {target : String} {ceiling : Nat}

/-- Where no variable is zero, what the simplifier returns for a Laurent polynomial has its value,
if at the start of every round each monomial with the exponent zero has the coefficient zero or
one. -/
theorem simplify_laurent (ht : Laurent t) (hf : ∀ name, f name ≠ 0)
    (hm : ∀ s m, Visits target t s → .monomial m ∈ s.subtrees → m.Unitary)
    (h : (Expr.simplify target ceiling t).outcome = .ok r) :
    ∃ v, (ofAssignment f).value t = some v ∧ (ofAssignment f).value r = some v := by
  obtain ⟨v, hv⟩ := exists_value_laurent hf ht
  exact ⟨v, hv, simplify_quotientFree rfl ht.quotientFree hm hv h⟩

/-- `x ^ 2 * x ^ -2 - 2 * y ^ -3 * (3 * y)` at `x = 2` and `y = 3`. The first product becomes a
number in the second round. -/
theorem simplify_laurent_inverse :
    let f : String → ℚ := fun name => if name = "x" then 2 else 3
    let square : Expr (Exact ℚ) := .monomial ⟨⟨some 1⟩, "x", ⟨some 2⟩⟩
    let inverse : Expr (Exact ℚ) := .monomial ⟨⟨some 1⟩, "x", ⟨some (-2)⟩⟩
    let y : Expr (Exact ℚ) := .monomial ⟨⟨some 3⟩, "y", ⟨some 1⟩⟩
    let z : Expr (Exact ℚ) := .monomial ⟨⟨some 2⟩, "y", ⟨some (-3)⟩⟩
    let t := .binary .sub (.binary .mul square inverse) (.binary .mul z y)
    let r := .binary .sub (.literal 1) (.monomial ⟨⟨some 6⟩, "y", ⟨some (-2)⟩⟩)
    (Expr.simplify "y" 4 t).outcome = .ok r ∧ (ofAssignment f).value t = some (1 / 3) ∧
      (ofAssignment f).value r = some (1 / 3) := by
  intro f square inverse y z t r
  have hf : ∀ name, f name ≠ 0 := by
    intro name
    simp only [f]
    split <;> decide +kernel
  let s : Expr (Exact ℚ) := .binary .sub (.monomial ⟨⟨some 1⟩, "x", ⟨some 0⟩⟩)
    (.monomial ⟨⟨some 6⟩, "y", ⟨some (-2)⟩⟩)
  have hts : Expr.fold (Expr.pass "y" t).value = .ok s := eq_ok_of_same (by decide +kernel)
  have hsr : Expr.fold (Expr.pass "y" s).value = .ok r := eq_ok_of_same (by decide +kernel)
  have hrr : Expr.fold (Expr.pass "y" r).value = .ok r := eq_ok_of_same (by decide +kernel)
  have hvisits : ∀ a, Visits "y" t a → a = t ∨ a = s ∨ a = r := by
    intro a ha
    induction ha with
    | start => exact .inl rfl
    | next _ hround ih =>
      rcases ih with rfl | rfl | rfl
      · exact .inr (.inl (Except.ok.inj (hround.symm.trans hts)))
      · exact .inr (.inr (Except.ok.inj (hround.symm.trans hsr)))
      · exact .inr (.inr (Except.ok.inj (hround.symm.trans hrr)))
  have hm : ∀ a m, Visits "y" t a → .monomial m ∈ a.subtrees → m.Unitary := by
    intro a m ha hmem hzero
    rcases hvisits a ha with rfl | rfl | rfl
    · simp [t, square, inverse, y, z, Expr.subtrees] at hmem
      rcases hmem with rfl | rfl | rfl | rfl <;> simp at hzero
    · simp [s, Expr.subtrees] at hmem
      rcases hmem with rfl | rfl
      · exact .inr rfl
      · simp at hzero
    · simp [r, Expr.subtrees, Expr.literal] at hmem
      subst hmem
      simp at hzero
  have hr : (Expr.simplify "y" 4 t).outcome = .ok r := eq_ok_of_same (by decide +kernel)
  have ht : Laurent t :=
    ⟨⟨⟨⟨1, rfl⟩, 2, rfl⟩, ⟨1, rfl⟩, -2, rfl⟩, ⟨⟨2, rfl⟩, -3, rfl⟩, ⟨3, rfl⟩, 1, rfl⟩
  have hv : (ofAssignment f).value t = some (1 / 3) := by decide +kernel
  obtain ⟨v, htv, hrv⟩ := simplify_laurent ht hf hm hr
  rw [hv] at htv
  exact ⟨hr, hv, hrv.trans htv.symm⟩

/-- `4 * x ^ 0` is `4` at `x = 2`, but becomes `1`. -/
theorem simplify_constant_monomial :
    let I : Interpretation ℚ := ofAssignment fun _ => 2
    let t : Expr (Exact ℚ) := .monomial ⟨⟨some 4⟩, "x", ⟨some 0⟩⟩
    Laurent t ∧ (Expr.simplify "x" 1 t).outcome = .ok (.literal 1) ∧
      I.value t = some 4 ∧ I.value (.literal 1) = some 1 := by
  intro I t
  have ht : Laurent t := ⟨⟨4, rfl⟩, 0, rfl⟩
  have hr : (Expr.simplify "x" 1 t).outcome = .ok (.literal 1) := eq_ok_of_same (by decide +kernel)
  have hv : I.value t = some 4 :=
    value_monomial.mpr ⟨4, 0, 1, rfl, rfl, PartialPower.power?_zero _, mul_one 4⟩
  exact ⟨ht, hr, hv, value_one⟩

end Interpretation
end SymbolicAlgebra
