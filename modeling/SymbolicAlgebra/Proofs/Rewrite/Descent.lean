import SymbolicAlgebra.Proofs.Rewrite.Measure

/-!
# Every step descends

Each rule and each operation on literals goes down in the order of
`Descends`, so passes and foldings do too unless they leave a tree alone.

Results:
* `Contracts.descends`: a rule applied at a node goes down.
* `Collapses.descends`: two literals replaced by one go down.
* `pass_eq_or_descends`: a pass leaves the tree alone without firing a rule, or
  fires a rule and goes down. In particular no two firings of a pass cancel.
* `fold_eq_or_descends`: a folding leaves the tree alone or goes down.
-/
namespace SymbolicAlgebra

/-- How often a sum or a difference counts the weight of its second term. -/
def Operator.toll : Operator → Nat
  | sub => 2
  | _ => 1

theorem Operator.weigh_additive {op : Operator} (h : op.isAdditive = true) (a b : Nat) :
    op.weigh a b = a + op.toll * b + 1 := by
  cases op with
  | add => simp only [weigh, toll, Nat.one_mul]
  | sub => rfl
  | _ => cases h

theorem Operator.weigh_multiplicative {op : Operator} (h : op.isMultiplicative = true ∨ op = .mod)
    (a b : Nat) : op.weigh a b = a * b := by
  rcases h with h | rfl
  · cases op with
    | mul | div => rfl
    | _ => cases h
  · rfl

namespace Expr

variable {α : Type} {target : String} {a b e e' l r : Expr α}

/-! ## Weights of leaves and operations -/

@[simp] theorem targets_negate (e : Expr α) :
    (negate e).targets target = e.targets target := rfl

@[simp] theorem targets_binary {op : Operator} :
    (binary op l r).targets target = l.targets target + r.targets target := rfl

/-- Only the variable of a monomial decides whether it counts. -/
theorem targets_monomial {m : Monomial α} :
    (monomial m).targets target = if m.var = target then 1 else 0 := rfl

variable [Scalar α]

@[simp] theorem weight_number (x : α) : (number x).weight = 2 := rfl
@[simp] theorem weight_literal (n : Nat) : (literal n : Expr α).weight = 2 := rfl
@[simp] theorem weight_negate (e : Expr α) : (negate e).weight = 2 * e.weight := rfl
@[simp] theorem weight_add : (binary .add l r).weight = l.weight + r.weight + 1 := rfl
@[simp] theorem weight_sub : (binary .sub l r).weight = l.weight + 2 * r.weight + 1 := rfl
@[simp] theorem weight_mul : (binary .mul l r).weight = l.weight * r.weight := rfl
@[simp] theorem weight_div : (binary .div l r).weight = l.weight * r.weight := rfl
@[simp] theorem weight_pow : (binary .pow l r).weight = l.weight * (r.weight - 1) + 1 := rfl

theorem weight_monomial_bounds (m : Monomial α) :
    3 ≤ (monomial m).weight ∧ (monomial m).weight ≤ 6 := by
  rw [weight]; split <;> omega

@[simp] theorem spread_number (x : α) : (number x).spread target = 2 := rfl
@[simp] theorem spread_negate (e : Expr α) :
    (negate e).spread target = 2 * e.spread target := rfl

@[simp] theorem spread_binary {op : Operator} : (binary op l r).spread target =
    l.spread target + r.spread target + 1 + 4 * (l.targets target + r.targets target) := rfl

theorem spread_monomial_bounds (target : String) (m : Monomial α) :
    1 ≤ (monomial m).spread target ∧ (monomial m).spread target ≤ 3 := by
  rw [spread]; split <;> omega

theorem weight_additive {op : Operator} (h : op.isAdditive = true) :
    (binary op l r).weight = l.weight + op.toll * r.weight + 1 := Operator.weigh_additive h _ _

theorem weight_multiplicative {op : Operator} (h : op.isMultiplicative = true ∨ op = .mod) :
    (binary op l r).weight = l.weight * r.weight := Operator.weigh_multiplicative h _ _

/-- Either operand of an operation weighs less than the operation. -/
theorem weight_lt_binary (op : Operator) (l r : Expr α) :
    l.weight < (binary op l r).weight ∧ r.weight < (binary op l r).weight := by
  have hl := two_le_weight l
  have hr := two_le_weight r
  have hmul : l.weight * 2 ≤ l.weight * r.weight := Nat.mul_le_mul_left _ hr
  have hmul' : 2 * r.weight ≤ l.weight * r.weight := Nat.mul_le_mul_right _ hl
  have hpow : l.weight * 1 ≤ l.weight * (r.weight - 1) := Nat.mul_le_mul_left _ (by omega)
  have hpow' : 2 * (r.weight - 1) ≤ l.weight * (r.weight - 1) := Nat.mul_le_mul_right _ hl
  cases op <;> simp only [weight, Operator.weigh] <;> omega

theorem two_lt_weight_binary (op : Operator) (l r : Expr α) : 2 < (binary op l r).weight := by
  have := two_le_weight l
  have := (weight_lt_binary op l r).1
  omega

/-! ## Rules that move a monomial of the target -/

/-- A move outward past an operation of the same kind keeps the weight. -/
theorem weight_hoistedRight {op inner : Operator} {c : Expr α}
    (h : op.commutesPast inner = true) :
    (binary inner (.binary op a c) b).weight = (binary op (.binary inner a b) c).weight := by
  rcases Bool.or_eq_true_iff.mp h with h | h
  · obtain ⟨hop, hin⟩ := Bool.and_eq_true_iff.mp h
    rw [weight_additive hin, weight_additive hop, weight_additive hop, weight_additive hin]
    ring
  · obtain ⟨hop, hin⟩ := Bool.and_eq_true_iff.mp h
    rw [weight_multiplicative (.inl hin), weight_multiplicative (.inl hop),
      weight_multiplicative (.inl hop), weight_multiplicative (.inl hin)]
    exact Nat.mul_right_comm _ _ _

theorem descends_hoistedRight {op inner : Operator} {m : Monomial α}
    (hpast : op.commutesPast inner = true) (hb : b.isTarget target = true) (hm : m.var ≠ target) :
    Descends target (.binary op (.binary inner a b) (.monomial m))
      (.binary inner (.binary op a (.monomial m)) b) := by
  obtain ⟨n, rfl, hn⟩ := monomial_of_isTarget hb
  refine .of_spread (Nat.le_of_eq ?_) ?_ ?_
  · exact weight_hoistedRight hpast
  · simp only [targets_binary]; omega
  · simp only [spread_binary, targets_binary, targets_monomial, if_pos hn, if_neg hm]; omega

theorem descends_hoistedSum {inner : Operator} {m : Monomial α}
    (hin : inner.isAdditive = true) (ha : a.isTarget target = true) (hm : m.var ≠ target) :
    Descends target (.binary .add (.binary inner a b) (.monomial m))
      (.binary .add (.binary inner (.monomial m) b) a) := by
  obtain ⟨n, rfl, hn⟩ := monomial_of_isTarget ha
  refine .of_spread (Nat.le_of_eq ?_) ?_ ?_
  · rw [weight_add, weight_add, weight_additive hin, weight_additive hin]; omega
  · simp only [targets_binary]; omega
  · simp only [spread_binary, targets_binary, targets_monomial, if_pos hn, if_neg hm]; omega

/-- The sign that a difference leaves on the monomial costs less than the move outward gains. -/
theorem descends_hoistedDifference {inner : Operator} {m : Monomial α}
    (hin : inner.isAdditive = true) (ha : a.isTarget target = true) (hm : m.var ≠ target) :
    Descends target (.binary .sub (.binary inner a b) (.monomial m))
      (.binary .add (.binary inner (.negate (.monomial m)) b) a) := by
  obtain ⟨n, rfl, hn⟩ := monomial_of_isTarget ha
  refine .of_spread (Nat.le_of_eq ?_) ?_ ?_
  · rw [weight_add, weight_sub, weight_additive hin, weight_additive hin, weight_negate]; omega
  · simp only [targets_binary, targets_negate]; omega
  · have hsign := (spread_monomial_bounds target m).2
    simp only [spread_binary, spread_negate, targets_binary, targets_negate, targets_monomial,
      if_pos hn, if_neg hm]
    omega

theorem descends_hoistedProduct {inner : Operator} {m : Monomial α}
    (hin : inner.isMultiplicative = true) (ha : a.isTarget target = true) (hm : m.var ≠ target) :
    Descends target (.binary .mul (.binary inner a b) (.monomial m))
      (.binary .mul (.binary inner (.monomial m) b) a) := by
  obtain ⟨n, rfl, hn⟩ := monomial_of_isTarget ha
  refine .of_spread (Nat.le_of_eq ?_) ?_ ?_
  · rw [weight_mul, weight_mul, weight_multiplicative (.inl hin), weight_multiplicative (.inl hin)]
    ring
  · simp only [targets_binary]; omega
  · simp only [spread_binary, targets_binary, targets_monomial, if_pos hn, if_neg hm]; omega

/-! ## Rules that move a sign -/

/-- The sum turns into a difference, which counts its second term twice as the sign did. -/
theorem descends_plusNegated (l b : Expr α) :
    Descends target (.binary .add l (.negate b)) (.binary .sub l b) := by
  have hb := one_le_spread target b
  refine .of_spread (Nat.le_of_eq ?_) (Nat.le_refl _) ?_
  · rw [weight_sub, weight_add, weight_negate]
  · simp only [spread_binary, spread_negate, targets_negate]; omega

theorem descends_negativeCoefficient [LawfulSign α] {m : Monomial α}
    (hm : Scalar.isNegative m.coefficient = true) : Descends target (.monomial m)
      (.negate (.monomial { m with coefficient := Scalar.neg m.coefficient })) := by
  have hneg := LawfulSign.isNegative_neg hm
  refine .of_spread ?_ (Nat.le_refl _) ?_
  · simp [weight, hm, hneg]
  · simp [spread, hm, hneg]

theorem descends_negatedProduct {op : Operator} (l r : Expr α)
    (hop : op.isMultiplicative = true ∨ op = .mod) :
    Descends target (.negate (.binary op l r)) (.binary op (.negate l) r) := by
  have hl := one_le_spread target l
  have hr := one_le_spread target r
  refine .of_spread (Nat.le_of_eq ?_) (Nat.le_refl _) ?_
  · rw [weight_multiplicative hop, weight_negate, weight_negate, weight_multiplicative hop,
      Nat.mul_assoc]
  · simp only [spread_negate, spread_binary, targets_negate]; omega

/-! ## Rules that join operands -/

theorem descends_plusSelf [LawfulSign α] (h : l.repeats r = true) :
    Descends target (.binary .add l r) (.binary .mul (literal 2) l) := by
  obtain ⟨hw, -, -⟩ := measures_eq_of_same target (Bool.and_eq_true_iff.mp h).1
  refine .of_weight ?_
  rw [weight_mul, weight_literal, weight_add]; omega

theorem descends_timesSelf [LawfulSign α] (h : l.repeats r = true) :
    Descends target (.binary .mul l r) (.binary .pow l (literal 2)) := by
  obtain ⟨hw, -, -⟩ := measures_eq_of_same target (Bool.and_eq_true_iff.mp h).1
  have hl := two_le_weight l
  have hll : 2 * l.weight ≤ l.weight * l.weight := Nat.mul_le_mul_right _ hl
  refine .of_weight ?_
  rw [weight_pow, weight_literal, weight_mul, ← hw]; omega

theorem descends_timesPower [LawfulSign α] {a' c : Expr α} (h : a.same a' = true) :
    Descends target (.binary .mul (.binary .pow a b) (.binary .pow a' c))
      (.binary .pow a (.binary .add b c)) := by
  obtain ⟨hw, -, -⟩ := measures_eq_of_same target h
  refine .of_spread ?_ ?_ ?_
  · obtain ⟨w, hwa⟩ := Nat.exists_eq_add_of_le (two_le_weight a)
    obtain ⟨u, hu⟩ := Nat.exists_eq_add_of_le (two_le_weight b)
    obtain ⟨v, hv⟩ := Nat.exists_eq_add_of_le (two_le_weight c)
    simp only [weight_mul, weight_pow, weight_add, ← hw, hwa, hu, hv]
    have hb : 2 + u - 1 = u + 1 := by omega
    have hc : 2 + v - 1 = v + 1 := by omega
    have hbc : 2 + u + (2 + v) + 1 - 1 = u + v + 4 := by omega
    rw [hb, hc, hbc]
    nlinarith [Nat.zero_le (w * u * v), Nat.zero_le (w * w)]
  · simp only [targets_binary]; omega
  · simp only [spread_binary, targets_binary]; omega

/-! ## Rules that make a monomial -/

theorem descends_timesMonomial (x c : α) (m : Monomial α) :
    Descends target (.binary .mul (.number x) (.monomial m))
      (.monomial { m with coefficient := c }) := by
  have hm := (weight_monomial_bounds m).1
  have hs := (spread_monomial_bounds target m).1
  have hm' := (weight_monomial_bounds { m with coefficient := c }).2
  have hs' := (spread_monomial_bounds target { m with coefficient := c }).2
  refine .of_spread ?_ (Nat.le_add_left _ _) ?_
  · rw [weight_mul, weight_number]; omega
  · rw [spread_binary, spread_number]; omega

theorem descends_monomialOver (x c : α) (m : Monomial α) :
    Descends target (.binary .div (.monomial m) (.number x))
      (.monomial { m with coefficient := c }) := by
  have hm := (weight_monomial_bounds m).1
  have hs := (spread_monomial_bounds target m).1
  have hm' := (weight_monomial_bounds { m with coefficient := c }).2
  have hs' := (spread_monomial_bounds target { m with coefficient := c }).2
  refine .of_spread ?_ (Nat.le_add_right _ _) ?_
  · rw [weight_div, weight_number]; omega
  · rw [spread_binary, spread_number]; omega

theorem operator_of_merge? {op : Operator} {m n k : Monomial α} (h : m.merge? op n = some k) :
    op = .add ∨ op = .sub ∨ op = .mul := by
  unfold Monomial.merge? at h
  split at h; · cases h
  split at h
  · exact .inl rfl
  · exact .inr (.inl rfl)
  · exact .inr (.inr rfl)
  · cases h

theorem descends_merged {op : Operator} {m n k : Monomial α} (h : m.merge? op n = some k) :
    Descends target (.binary op (.monomial m) (.monomial n)) (.monomial k) := by
  have hm := (weight_monomial_bounds m).1
  have hn := (weight_monomial_bounds n).1
  have hmn : 3 * 3 ≤ (monomial m).weight * (monomial n).weight := Nat.mul_le_mul hm hn
  have hk := (weight_monomial_bounds k).2
  refine .of_weight ?_
  rcases operator_of_merge? h with rfl | rfl | rfl
  · rw [weight_add]; omega
  · rw [weight_sub]; omega
  · rw [weight_mul]; omega

/-! ## One step -/

/-- A rule applied at a node goes down. -/
theorem Contracts.descends [LawfulSign α] (h : Contracts target e e') : Descends target e e' := by
  cases h with
  | zeroPlus _ | oneTimes _ => exact .of_weight (weight_lt_binary _ _ _).2
  | plusZero _ | minusZero _ | timesOne _ | overOne _ | powerOne _ =>
    exact .of_weight (weight_lt_binary _ _ _).1
  | minusSelf _ | zeroTimes _ | timesZero _ | overSelf _ | powerZero _ =>
    exact .of_weight (two_lt_weight_binary _ _ _)
  | plusSelf hs => exact descends_plusSelf hs
  | plusNegated => exact descends_plusNegated _ _
  | zeroMinus hl =>
    obtain ⟨x, rfl, -⟩ := number_of_isLiteral hl
    refine .of_weight ?_
    rw [weight_negate, weight_sub]; omega
  | @minusNegated l b =>
    have hb := two_le_weight b
    refine .of_weight ?_
    rw [weight_add, weight_sub, weight_negate]; omega
  | timesSelf hs => exact descends_timesSelf hs
  | timesPower hs _ => exact descends_timesPower hs
  | @timesSum n op b c hop =>
    have hc : op.toll * (2 * c.weight) = 2 * (op.toll * c.weight) := Nat.mul_left_comm _ _ _
    refine .of_weight ?_
    simp only [weight_additive hop, weight_mul, weight_number]; omega
  | timesMonomial => exact descends_timesMonomial _ _ _
  | monomialOver => exact descends_monomialOver _ _ _
  | @powerNegated l n =>
    have hl := two_le_weight l
    refine .of_weight ?_
    simp only [weight_div, weight_pow, weight_negate, weight_number, weight_literal]; omega
  | @zeroCoefficient m _ | @zeroExponent m _ =>
    have hm := (weight_monomial_bounds m).1
    exact .of_weight hm
  | negativeCoefficient hm => exact descends_negativeCoefficient hm
  | negatedNegation =>
    have he := two_le_weight e'
    refine .of_weight ?_
    rw [weight_negate, weight_negate]; omega
  | @negatedSum op l r hop =>
    have hr : op.toll * (2 * r.weight) = 2 * (op.toll * r.weight) := Nat.mul_left_comm _ _ _
    refine .of_weight ?_
    simp only [weight_additive hop, weight_negate]; omega
  | negatedProduct hop => exact descends_negatedProduct _ _ hop
  | merged hm => exact descends_merged hm
  | hoistedRight hpast hb hm => exact descends_hoistedRight hpast hb hm
  | hoistedSum hin ha hm => exact descends_hoistedSum hin ha hm
  | hoistedDifference hin ha hm => exact descends_hoistedDifference hin ha hm
  | hoistedProduct hin ha hm => exact descends_hoistedProduct hin ha hm

theorem Collapses.descends (h : Collapses e e') : Descends target e e' := by
  cases h with
  | literals _ _ => exact .of_weight (two_lt_weight_binary _ _ _)

/-! ## Whole passes and foldings -/

open Relation

theorem Descends.of_transGen {R : Expr α → Expr α → Prop}
    (hR : ∀ a b, R a b → Descends target a b) (h : TransGen R a b) : Descends target a b := by
  induction h with
  | single h => exact hR _ _ h
  | tail _ h ih => exact ih.trans (hR _ _ h)

/-- A pass fires no rule and leaves the tree alone, or it goes down. -/
theorem pass_eq_or_descends [LawfulSign α] (target : String) (e : Expr α) :
    pass target e = pure e ∨
      (pass target e).events ≠ [] ∧ Descends target e (pass target e).value := by
  rcases pass_progress target e with h | ⟨hev, hsteps⟩
  · exact .inl h
  · refine .inr ⟨hev, .of_transGen (fun a b hab => ?_) hsteps⟩
    exact .within (fun _ _ => Contracts.descends) hab

/-- A folding leaves the tree alone or goes down. -/
theorem fold_eq_or_descends (target : String) (h : fold e = .ok e') :
    e' = e ∨ Descends target e e' := by
  rcases reflTransGen_iff_eq_or_transGen.mp (fold_collapses h) with heq | hsteps
  · exact .inl heq
  · refine .inr (.of_transGen (fun a b hab => ?_) hsteps)
    exact .within (fun _ _ => Collapses.descends) hab

end Expr
end SymbolicAlgebra
