import Mathlib.Algebra.Order.BigOperators.Group.List
import Mathlib.Tactic.LinearCombination
import SymbolicAlgebra.Proofs.Equation.Affine
import SymbolicAlgebra.Proofs.Exact.Equation

/-!
# Linear equations

A linear tree is made of numbers and of monomials with the exponent one by
sums, differences and negations. Where the total coefficients of the target on
the two sides differ, whether the equation holds depends on the target, and
isolating keeps that: the target never gets lost. The loop stops, with the
target alone on the left or with what is left of it inside a side, where no
transposition looks.

Results:
* `value_linear`: the value of a linear tree as a function of the target.
* `value_set_of_free`: a tree without the target does not depend on it.
* `isolate_linear`: what isolating makes of a linear equation.
-/
namespace SymbolicAlgebra

namespace Expr

variable {K : Type} [Field K] [LinearOrder K] [FloorRing K] [PartialPower K]

/-- Sums, differences and negations of numbers and of monomials with the exponent one. -/
def Linear : Expr (Exact K) → Prop
  | .number x => ∃ a, x.get? = some a
  | .monomial m => (∃ c, m.coefficient.get? = some c) ∧ m.exponent = Scalar.natural 1
  | .negate e => Linear e
  | .binary .add l r => Linear l ∧ Linear r
  | .binary .sub l r => Linear l ∧ Linear r
  | _ => False

/-- The total coefficient of the target. -/
def slope (target : String) : Expr (Exact K) → K
  | .monomial m => if m.var = target then m.coefficient.get?.getD 0 else 0
  | .negate e => -slope target e
  | .binary .add l r => slope target l + slope target r
  | .binary .sub l r => slope target l - slope target r
  | _ => 0

variable {e : Expr (Exact K)}

/-- Induction on linear trees. -/
theorem Linear.induction {p : Expr (Exact K) → Prop} (h : Linear e)
    (number : ∀ x a, x.get? = some a → p (.number x))
    (monomial : ∀ m c, m.coefficient.get? = some c → m.exponent = Scalar.natural 1 →
      p (.monomial m))
    (negate : ∀ e, p e → p (.negate e))
    (add : ∀ l r, p l → p r → p (.binary .add l r))
    (sub : ∀ l r, p l → p r → p (.binary .sub l r)) : p e := by
  induction e with
  | number x =>
    obtain ⟨a, ha⟩ := h
    exact number x a ha
  | monomial m =>
    obtain ⟨⟨c, hc⟩, hx⟩ := h
    exact monomial m c hc hx
  | negate e ih => exact negate e (ih h)
  | binary op l r ihl ihr =>
    cases op with
    | add => exact add l r (ihl h.1) (ihr h.2)
    | sub => exact sub l r (ihl h.1) (ihr h.2)
    | _ => cases h
  | call _ _ | constant _ _ => cases h

theorem Linear.affine (target : String) (h : Linear e) : Affine target e := by
  refine h.induction ?_ ?_ ?_ ?_ ?_
  · exact fun _ _ _ => rfl
  · exact fun _ _ _ hx _ => hx
  · exact fun _ he => he
  · exact fun _ _ hl hr => ⟨hl, hr⟩
  · exact fun _ _ hl hr => ⟨hl, hr⟩

theorem Linear.equalityFree (h : Linear e) : e.EqualityFree := by
  refine h.induction ?_ ?_ ?_ ?_ ?_
  · exact fun _ _ _ => forall_subtrees_number.mpr rfl
  · exact fun _ _ _ _ => forall_subtrees_monomial.mpr rfl
  · exact fun _ he => forall_subtrees_negate.mpr ⟨rfl, he⟩
  · exact fun _ _ hl hr => equalityFree_binary.mpr ⟨by decide, hl, hr⟩
  · exact fun _ _ hl hr => equalityFree_binary.mpr ⟨by decide, hl, hr⟩

end Expr

namespace Interpretation

open SymbolicAlgebra.Expr (Linear)

/-- The same meaning of all names but `target`. -/
def set {K : Type} (I : Interpretation K) (target : String) (x : K) : Interpretation K :=
  { I with assignment := Function.update I.assignment target x }

@[simp] theorem set_assignment {K : Type} (I : Interpretation K) (target : String) (x : K) :
    (I.set target x).assignment = Function.update I.assignment target x := rfl

variable {K : Type} [Field K] [LinearOrder K] [PartialPower K]
variable {I : Interpretation K} {target : String} {e : Expr (Exact K)}

/-! ## Values as functions of the target -/

theorem values_congr {J : Interpretation K} : ∀ {es : List (Expr (Exact K))},
    (∀ e ∈ es, I.value e = J.value e) → I.values es = J.values es
  | [], _ => rfl
  | e :: es, h => by
    rw [values, values, h e (by simp), values_congr fun a ha => h a (List.mem_cons_of_mem e ha)]

/-- A tree without the target has one value, whatever the target is. -/
theorem value_set_of_free (x : K) (h : e.targets target = 0) :
    (I.set target x).value e = I.value e := by
  induction e with
  | number _ | constant _ _ => rfl
  | monomial m =>
    have hm : m.var ≠ target := by
      intro hm
      rw [Expr.targets, if_pos hm] at h
      cases h
    simp only [value, monomial, set_assignment, Function.update_of_ne hm]
  | negate e ih => rw [value, value, ih h]
  | binary op l r ihl ihr =>
    obtain ⟨hl, hr⟩ := Nat.add_eq_zero_iff.mp h
    rw [value, value, ihl hl, ihr hr]
    rfl
  | call name args ih =>
    rw [Expr.targets, Expr.targetsAll_eq_sum, List.sum_eq_zero_iff] at h
    rw [value, value, values_congr fun a ha => ih a ha (h _ (List.mem_map_of_mem ha))]
    rfl

variable [FloorRing K]

/-- The value of a linear tree is linear in the target. -/
theorem value_linear (I : Interpretation K) (target : String) (h : Linear e) :
    ∃ c, ∀ x, (I.set target x).value e = some (Expr.slope target e * x + c) := by
  refine h.induction
    (p := fun e => ∃ c, ∀ x, (I.set target x).value e = some (Expr.slope target e * x + c))
    ?_ ?_ ?_ ?_ ?_
  · intro y a ha
    exact ⟨a, fun x => by simp [value_number, ha, Expr.slope]⟩
  · intro m c hc hexp
    have hone : m.exponent.get? = some 1 := by rw [hexp]; exact congrArg some Nat.cast_one
    have hpower : ∀ J : Interpretation K, J.value (.monomial m) = some (c * J.assignment m.var) :=
      fun J => value_monomial.mpr ⟨c, 1, _, hc, hone, PartialPower.power?_one _, rfl⟩
    by_cases hm : m.var = target
    · refine ⟨0, fun x => ?_⟩
      rw [hpower, set_assignment, Expr.slope, if_pos hm, hc, hm, Function.update_self,
        Option.getD_some, add_zero]
    · refine ⟨c * I.assignment m.var, fun x => ?_⟩
      rw [hpower, set_assignment, Expr.slope, if_neg hm, Function.update_of_ne hm, zero_mul,
        zero_add]
  · rintro e ⟨c, hc⟩
    exact ⟨-c, fun x => value_negate.mpr ⟨_, hc x, by rw [Expr.slope]; ring⟩⟩
  · rintro l r ⟨c, hc⟩ ⟨d, hd⟩
    exact ⟨c + d, fun x => value_add.mpr ⟨_, _, hc x, hd x, by rw [Expr.slope]; ring⟩⟩
  · rintro l r ⟨c, hc⟩ ⟨d, hd⟩
    exact ⟨c - d, fun x => value_sub.mpr ⟨_, _, hc x, hd x, by rw [Expr.slope]; ring⟩⟩

theorem tame_linear (I : Interpretation K) (h : Linear e) : I.Tame e := by
  refine h.induction ?_ ?_ ?_ ?_ ?_
  · exact fun _ _ _ => tame_number
  · intro m c _ hexp
    exact tame_monomial.mpr ⟨1, by rw [hexp]; exact congrArg some Nat.cast_one, one_pos⟩
  · exact fun _ he => tame_negate.mpr he
  · exact fun _ _ hl hr => tame_binary.mpr ⟨trivial, hl, hr⟩
  · exact fun _ _ hl hr => tame_binary.mpr ⟨trivial, hl, hr⟩

/-! ## Linear equations -/

variable [IsStrictOrderedRing K] {s r : Equation (Exact K)} {ceiling : Nat}

omit [PartialPower K] [FloorRing K] in
/-- Two linear functions of different slopes agree somewhere, and do not agree somewhere else. -/
theorem exists_eq_and_ne {a b : K} (h : a ≠ b) (c d : K) :
    ∃ x y, a * x + c = b * x + d ∧ a * y + c ≠ b * y + d := by
  have hsub : a - b ≠ 0 := sub_ne_zero.mpr h
  obtain ⟨x, hx⟩ : ∃ x, (a - b) * x = d - c := ⟨(d - c) / (a - b), mul_div_cancel₀ _ hsub⟩
  refine ⟨x, x + 1, by linear_combination hx, ?_⟩
  intro hy
  exact hsub (by linear_combination hy - hx)

/-- Isolating does not lose the target of a linear equation that depends on it: without it, the
result would hold for all values of the target or for none. -/
theorem targets_pos_of_isolate {e : Equation (Exact K)} (hl : Linear e.lhs) (hr : Linear e.rhs)
    (hslope : Expr.slope target e.lhs ≠ Expr.slope target e.rhs)
    (h : (e.isolate target ceiling).outcome = .ok r) : 0 < r.targets target := by
  rw [Nat.pos_iff_ne_zero]
  intro hfree
  obtain ⟨hfl, hfr⟩ := Nat.add_eq_zero_iff.mp hfree
  let I : Interpretation K := ⟨fun _ => 0, fun _ _ => none, fun _ _ => none⟩
  obtain ⟨c, hc⟩ := value_linear I target hl
  obtain ⟨d, hd⟩ := value_linear I target hr
  have hiff : ∀ x, I.Holds r ↔
      Expr.slope target e.lhs * x + c = Expr.slope target e.rhs * x + d := by
    intro x
    have htracks : (I.set target x).Tracks
        (Expr.slope target e.lhs * x + c = Expr.slope target e.rhs * x + d) e :=
      ⟨tame_linear _ hl, tame_linear _ hr, _, _, hc x, hd x, Iff.rfl⟩
    have hholds := (tracks_of_visits htracks (Equation.visits_of_isolate h)).1.holds_iff
    rwa [Holds, value_set_of_free x hfl, value_set_of_free x hfr] at hholds
  obtain ⟨x, y, hx, hy⟩ := exists_eq_and_ne hslope c d
  exact hy ((hiff y).mp ((hiff x).mpr hx))

end Interpretation

namespace Equation

open SymbolicAlgebra.Expr (Linear)

variable {K : Type} [Field K] [LinearOrder K] [FloorRing K] [PartialPower K]
variable {target : String}

variable [IsStrictOrderedRing K]

/-- Where the total coefficients of the target on the two sides of a linear equation differ,
isolating gives one and the same equation from some ceiling on. The target is isolated there, or it
is buried: it still occurs, and no transposition has anything left to do. If one monomial of the
target is left when both sides are simplified, and some transposition applies, it is isolated. -/
theorem isolate_linear {e : Equation (Exact K)} (hl : Linear e.lhs) (hr : Linear e.rhs)
    (hslope : Expr.slope target e.lhs ≠ Expr.slope target e.rhs) :
    ∃ r : Equation (Exact K),
      (∃ n, ∀ ceiling, n ≤ ceiling →
        (e.toExpr.isolate target ceiling).outcome = .ok r.toExpr) ∧
      (Isolates target r ∨ Buried target r ∧ AtRest target r) ∧
      ∀ s, NormalizesTo target e s → Single target s → Isolates target r := by
  have haff : Affine target e := ⟨hl.affine target, hr.affine target⟩
  have hfree : EqualityFree e := ⟨hl.equalityFree, hr.equalityFree⟩
  obtain ⟨s, hs⟩ := exists_normalizesTo target hfree
  obtain ⟨r, -, hraff, hrest, hsingle, n, hn⟩ := haff.isolate hfree hs
  have hpos := Interpretation.targets_pos_of_isolate hl hr hslope (hn n (Nat.le_refl n))
  refine ⟨r, ⟨n, fun ceiling hle => ?_⟩, ?_, fun s' hs' => ?_⟩
  · rw [isolate_toExpr_outcome, hn ceiling hle]
    rfl
  · exact (hrest.isolates_or_buried hraff hpos).imp id fun h => ⟨h, hrest⟩
  · rw [hs'.unique hs]
    exact hsingle

/-- `4 - 2x = y + 6` is in normal form and solved for `x`. -/
theorem isolate_linear_subtrahend :
    let x : Expr (Exact ℚ) := .monomial ⟨⟨some 2⟩, "x", ⟨some 1⟩⟩
    let y : Expr (Exact ℚ) := .monomial ⟨⟨some 1⟩, "y", ⟨some 1⟩⟩
    let e : Equation (Exact ℚ) :=
      ⟨.binary .sub (.number ⟨some 4⟩) x, .binary .add y (.number ⟨some 6⟩)⟩
    e.lhs.Linear ∧ e.rhs.Linear ∧ Expr.slope "x" e.lhs ≠ Expr.slope "x" e.rhs ∧
      ∃ r : Equation (Exact ℚ), Isolates "x" r ∧ ∃ n, ∀ ceiling, n ≤ ceiling →
        (e.toExpr.isolate "x" ceiling).outcome = .ok r.toExpr := by
  intro x y e
  have hl : e.lhs.Linear := ⟨⟨_, rfl⟩, ⟨_, rfl⟩, rfl⟩
  have hr : e.rhs.Linear := ⟨⟨⟨_, rfl⟩, rfl⟩, ⟨_, rfl⟩⟩
  have hslope : Expr.slope "x" e.lhs ≠ Expr.slope "x" e.rhs := by decide +kernel
  have hnormal : Normal "x" e := ⟨⟨rfl, rfl⟩, ⟨rfl, rfl⟩⟩
  have hsingle : Single "x" e := ⟨rfl, _, _, .leftSubtrahend rfl⟩
  obtain ⟨r, hn, -, hisolates⟩ := isolate_linear hl hr hslope
  exact ⟨hl, hr, hslope, r, hisolates e hnormal.normalizesTo hsingle, hn⟩

/-- `5 = x` stays as it is: no transposition takes a target off the right side where it stands
alone. -/
theorem isolate_right_alone :
    let e : Equation (Exact ℚ) := ⟨.number ⟨some 5⟩, .monomial ⟨⟨some 1⟩, "x", ⟨some 1⟩⟩⟩
    e.lhs.Linear ∧ e.rhs.Linear ∧ Expr.slope "x" e.lhs ≠ Expr.slope "x" e.rhs ∧ ¬ Isolates "x" e ∧
      ∀ ceiling, 0 < ceiling → (e.toExpr.isolate "x" ceiling).outcome = .ok e.toExpr := by
  intro e
  have hnormal : Normal "x" e := ⟨⟨rfl, rfl⟩, ⟨rfl, rfl⟩⟩
  have hl : e.lhs.Linear := ⟨_, rfl⟩
  have hr : e.rhs.Linear := ⟨⟨_, rfl⟩, rfl⟩
  have hslope : Expr.slope "x" e.lhs ≠ Expr.slope "x" e.rhs := by decide +kernel
  have hnot : ¬ Isolates "x" e := by
    intro h
    cases h.lhs
  refine ⟨hl, hr, hslope, hnot, ?_⟩
  intro ceiling hpos
  have hnorm : (normalize "x" ceiling e).outcome = .ok e := by
    simp only [normalize, Attempt.outcome_bind]
    rw [Expr.simplify_of_normal hnormal.lhs hpos, Expr.simplify_of_normal hnormal.rhs hpos]
    rfl
  obtain ⟨left, rfl⟩ := Nat.exists_eq_add_of_le' hpos
  have hsettle : (settle "x" (left + 1) (left + 1) e).outcome = .ok e :=
    settle_outcome_of_same hnorm (same_self e)
  rw [isolate_toExpr_outcome]
  simp only [isolate, Attempt.outcome_bind]
  rw [hnorm]
  exact congrArg (Except.map toExpr) hsettle

end Equation
end SymbolicAlgebra
