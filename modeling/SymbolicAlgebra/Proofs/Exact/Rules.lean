import Mathlib.Tactic.Ring
import SymbolicAlgebra.Proofs.Exact.Value

/-!
# Rules keep values

Every rule keeps the value of a node that allows it, which every node of a tame
tree does, and keeps a tame tree tame. A sum and a difference are treated as
one, the sign of the second term being the operator's, and so are a product and
a quotient.

A base that is zero needs care only where powers are made. Squaring makes one
with the exponent 2, and two powers of one base are joined only if they are not
equal, so of two zero bases with exponent 2 no sum of exponents ever comes.

Results:
* `value_of_contracts`: a rule keeps the value of the tree it is applied to.
* `tame_of_contracts`: a rule keeps a tree tame.
-/
namespace SymbolicAlgebra

/-- The sign that a sum or a difference gives its second term. -/
def Operator.sign (K : Type) [Field K] : Operator → K
  | sub => -1
  | _ => 1

/-- The factor that a product or a quotient makes of its second operand. -/
def Operator.factor {K : Type} [Field K] : Operator → K → K
  | div, b => b⁻¹
  | _, b => b

namespace Interpretation

open SymbolicAlgebra.Expr (Contracts literal)

variable {K : Type} [Field K] [LinearOrder K] [PartialPower K] {I : Interpretation K}
variable {e e' l r : Expr (Exact K)} {v : K}

/-! ## Operators of one kind -/

theorem value_additive {op : Operator} (hop : op.isAdditive = true) :
    I.value (.binary op l r) = some v ↔
      ∃ a b, I.value l = some a ∧ I.value r = some b ∧ a + op.sign K * b = v := by
  cases op with
  | add => simp only [value_add, Operator.sign, one_mul]
  | sub => simp only [value_sub, Operator.sign, neg_mul, one_mul, ← sub_eq_add_neg]
  | _ => cases hop

theorem value_multiplicative {op : Operator} (hop : op.isMultiplicative = true) :
    I.value (.binary op l r) = some v ↔
      ∃ a b, I.value l = some a ∧ I.value r = some b ∧ (op = .div → b ≠ 0) ∧
        a * op.factor b = v := by
  cases op with
  | mul => simp [value_mul, Operator.factor]
  | div => simp [value_div, Operator.factor, div_eq_mul_inv]
  | _ => cases hop

/-! ## Rules that only rearrange -/

theorem value_add_negate (h : I.value (.binary .add l (.negate r)) = some v) :
    I.value (.binary .sub l r) = some v := by
  obtain ⟨a, b, ha, hb, rfl⟩ := value_add.mp h
  obtain ⟨c, hc, rfl⟩ := value_negate.mp hb
  exact value_sub.mpr ⟨a, c, ha, hc, sub_eq_add_neg a c⟩

theorem value_sub_negate (h : I.value (.binary .sub l (.negate r)) = some v) :
    I.value (.binary .add l r) = some v := by
  obtain ⟨a, b, ha, hb, rfl⟩ := value_sub.mp h
  obtain ⟨c, hc, rfl⟩ := value_negate.mp hb
  exact value_add.mpr ⟨a, c, ha, hc, (sub_neg_eq_add a c).symm⟩

theorem value_mul_additive {op : Operator} {x : Exact K} (hop : op.isAdditive = true)
    (h : I.value (.binary .mul (.number x) (.binary op l r)) = some v) :
    I.value (.binary op (.binary .mul (.number x) l) (.binary .mul (.number x) r)) = some v := by
  obtain ⟨c, y, hc, hy, rfl⟩ := value_mul.mp h
  obtain ⟨a, b, ha, hb, rfl⟩ := (value_additive hop).mp hy
  have hca := value_mul.mpr ⟨c, a, hc, ha, rfl⟩
  have hcb := value_mul.mpr ⟨c, b, hc, hb, rfl⟩
  exact (value_additive hop).mpr ⟨_, _, hca, hcb, by ring⟩

theorem value_pow_mul_pow {a b c : Expr (Exact K)}
    (h : I.value (.binary .mul (.binary .pow a b) (.binary .pow a c)) = some v) :
    I.value (.binary .pow a (.binary .add b c)) = some v := by
  obtain ⟨p, q, hp, hq, rfl⟩ := value_mul.mp h
  obtain ⟨x, y, hx, hy, hxy⟩ := value_pow.mp hp
  obtain ⟨x', z, hx', hz, hxz⟩ := value_pow.mp hq
  rw [hx] at hx'
  cases hx'
  have hyz := value_add.mpr ⟨y, z, hy, hz, rfl⟩
  exact value_pow.mpr ⟨x, y + z, hx, hyz, PartialPower.power?_add hxy hxz⟩

theorem value_negate_negate (h : I.value (.negate (.negate e)) = some v) :
    I.value e = some v := by
  obtain ⟨a, ha, rfl⟩ := value_negate.mp h
  obtain ⟨b, hb, rfl⟩ := value_negate.mp ha
  rw [hb, neg_neg]

theorem value_negate_additive {op : Operator} (hop : op.isAdditive = true)
    (h : I.value (.negate (.binary op l r)) = some v) :
    I.value (.binary op (.negate l) (.negate r)) = some v := by
  obtain ⟨x, hx, rfl⟩ := value_negate.mp h
  obtain ⟨a, b, ha, hb, rfl⟩ := (value_additive hop).mp hx
  have hna := value_negate.mpr ⟨a, ha, rfl⟩
  have hnb := value_negate.mpr ⟨b, hb, rfl⟩
  exact (value_additive hop).mpr ⟨-a, -b, hna, hnb, by ring⟩

theorem value_negate_multiplicative {op : Operator} (hop : op.isMultiplicative = true)
    (h : I.value (.negate (.binary op l r)) = some v) :
    I.value (.binary op (.negate l) r) = some v := by
  obtain ⟨x, hx, rfl⟩ := value_negate.mp h
  obtain ⟨a, b, ha, hb, hb0, rfl⟩ := (value_multiplicative hop).mp hx
  have hna := value_negate.mpr ⟨a, ha, rfl⟩
  exact (value_multiplicative hop).mpr ⟨-a, b, hna, hb, hb0, neg_mul a _⟩

/-- A negation moves into the dividend where remainders have its sign. -/
theorem value_negate_mod
    (hodd : ∀ a b c, I.remainder? a b = some c → I.remainder? (-a) b = some (-c))
    (h : I.value (.negate (.binary .mod l r)) = some v) :
    I.value (.binary .mod (.negate l) r) = some v := by
  obtain ⟨x, hx, rfl⟩ := value_negate.mp h
  obtain ⟨a, b, ha, hb, hab⟩ := value_binary.mp hx
  have hna := value_negate.mpr ⟨a, ha, rfl⟩
  exact value_binary.mpr ⟨-a, b, hna, hb, hodd a b x hab⟩

/-- Two operations of one kind trade places. -/
theorem value_hoistedRight {op inner : Operator} {a b c : Expr (Exact K)}
    (hpast : op.commutesPast inner = true)
    (hv : I.value (.binary op (.binary inner a b) c) = some v) :
    I.value (.binary inner (.binary op a c) b) = some v := by
  rcases Bool.or_eq_true_iff.mp hpast with hpast | hpast
  · obtain ⟨hop, hin⟩ := Bool.and_eq_true_iff.mp hpast
    obtain ⟨u, z, hu, hz, rfl⟩ := (value_additive hop).mp hv
    obtain ⟨x, y, hx, hy, rfl⟩ := (value_additive hin).mp hu
    have hxz := (value_additive hop).mpr ⟨x, z, hx, hz, rfl⟩
    exact (value_additive hin).mpr ⟨_, y, hxz, hy, by ring⟩
  · obtain ⟨hop, hin⟩ := Bool.and_eq_true_iff.mp hpast
    obtain ⟨u, z, hu, hz, hz0, rfl⟩ := (value_multiplicative hop).mp hv
    obtain ⟨x, y, hx, hy, hy0, rfl⟩ := (value_multiplicative hin).mp hu
    have hxz := (value_multiplicative hop).mpr ⟨x, z, hx, hz, hz0, rfl⟩
    exact (value_multiplicative hin).mpr ⟨_, y, hxz, hy, hy0, mul_right_comm _ _ _⟩

theorem value_hoistedSum {inner : Operator} {a b c : Expr (Exact K)}
    (hin : inner.isAdditive = true)
    (h : I.value (.binary .add (.binary inner a b) c) = some v) :
    I.value (.binary .add (.binary inner c b) a) = some v := by
  obtain ⟨u, z, hu, hz, rfl⟩ := value_add.mp h
  obtain ⟨x, y, hx, hy, rfl⟩ := (value_additive hin).mp hu
  have hzy := (value_additive hin).mpr ⟨z, y, hz, hy, rfl⟩
  exact value_add.mpr ⟨_, x, hzy, hx, by ring⟩

theorem value_hoistedDifference {inner : Operator} {a b c : Expr (Exact K)}
    (hin : inner.isAdditive = true)
    (h : I.value (.binary .sub (.binary inner a b) c) = some v) :
    I.value (.binary .add (.binary inner (.negate c) b) a) = some v := by
  obtain ⟨u, z, hu, hz, rfl⟩ := value_sub.mp h
  obtain ⟨x, y, hx, hy, rfl⟩ := (value_additive hin).mp hu
  have hnz := value_negate.mpr ⟨z, hz, rfl⟩
  have hzy := (value_additive hin).mpr ⟨-z, y, hnz, hy, rfl⟩
  exact value_add.mpr ⟨_, x, hzy, hx, by ring⟩

theorem value_hoistedProduct {inner : Operator} {a b c : Expr (Exact K)}
    (hin : inner.isMultiplicative = true)
    (h : I.value (.binary .mul (.binary inner a b) c) = some v) :
    I.value (.binary .mul (.binary inner c b) a) = some v := by
  obtain ⟨u, z, hu, hz, rfl⟩ := value_mul.mp h
  obtain ⟨x, y, hx, hy, hy0, rfl⟩ := (value_multiplicative hin).mp hu
  have hzy := (value_multiplicative hin).mpr ⟨z, y, hz, hy, hy0, rfl⟩
  exact value_mul.mpr ⟨_, x, hzy, hx, by ring⟩

/-! ## Literals -/

variable [FloorRing K]

theorem value_zero : I.value (literal 0) = some 0 := by rw [value_literal, Nat.cast_zero]

theorem value_one : I.value (literal 1) = some 1 := by rw [value_literal, Nat.cast_one]

theorem value_two : I.value (literal 2) = some 2 := by rw [value_literal, Nat.cast_ofNat]

/-! ## Equality of exact trees -/

theorem eq_literal {n : Nat} (h : e.isLiteral n = true) : e = literal n := by
  obtain ⟨x, rfl, hx⟩ := Expr.number_of_isLiteral h
  rw [Exact.eq_of_eqv hx]; rfl

theorem eq_of_same (h : l.same r = true) : l = r :=
  Expr.eq_of_same (fun _ _ => Exact.eq_of_same) h

theorem eq_of_repeats (h : l.repeats r = true) : l = r :=
  eq_of_same (Bool.and_eq_true_iff.mp h).1

/-- A run that ends in a tree equal to `r` ends in `r`. -/
theorem eq_ok_of_same {ε : Type} {x : Except ε (Expr (Exact K))}
    (h : x.toOption.any (fun s => s.same r) = true) : x = .ok r := by
  cases x with
  | error err => cases h
  | ok s => rw [eq_of_same h]

/-! ## Monomials -/

theorem value_negate_monomial {m : Monomial (Exact K)} (h : I.value (.monomial m) = some v) :
    I.value (.negate (.monomial { m with coefficient := Scalar.neg m.coefficient })) =
      some v := by
  obtain ⟨c, x, p, hc, hx, hp, rfl⟩ := value_monomial.mp h
  have hneg : I.value (.monomial { m with coefficient := Scalar.neg m.coefficient }) =
      some (-c * p) :=
    value_monomial.mpr ⟨-c, x, p, congrArg (Option.map (- ·)) hc, hx, hp, rfl⟩
  exact value_negate.mpr ⟨_, hneg, by ring⟩

theorem value_zero_monomial {m : Monomial (Exact K)}
    (hm : Scalar.eqv m.coefficient (Scalar.natural 0) = true)
    (h : I.value (.monomial m) = some v) : I.value (literal 0) = some v := by
  obtain ⟨c, x, p, hc, hx, hp, rfl⟩ := value_monomial.mp h
  rw [Exact.eqv_natural.mp hm, Nat.cast_zero] at hc
  cases hc
  rw [value_zero, zero_mul]

theorem merge?_cases {op : Operator} {m n k : Monomial (Exact K)} (h : m.merge? op n = some k) :
    m.var = n.var ∧
      ((op = .add ∧ m.exponent = n.exponent ∧
          k = { m with coefficient := Scalar.add m.coefficient n.coefficient }) ∨
        (op = .sub ∧ m.exponent = n.exponent ∧
          k = { m with coefficient := Scalar.sub m.coefficient n.coefficient }) ∨
        (op = .mul ∧ k = ⟨Scalar.mul m.coefficient n.coefficient, m.var,
          Scalar.add m.exponent n.exponent⟩)) := by
  unfold Monomial.merge? at h
  split at h; · cases h
  rename_i hvar
  refine ⟨by simpa using hvar, ?_⟩
  split at h
  · split at h
    · rename_i hlike
      cases h
      exact .inl ⟨rfl, Exact.eq_of_eqv (Bool.and_eq_true_iff.mp hlike).2, rfl⟩
    · cases h
  · split at h
    · rename_i hlike
      cases h
      exact .inr (.inl ⟨rfl, Exact.eq_of_eqv (Bool.and_eq_true_iff.mp hlike).2, rfl⟩)
    · cases h
  · cases h; exact .inr (.inr ⟨rfl, rfl⟩)
  · cases h

theorem value_merged {op : Operator} {m n k : Monomial (Exact K)} (h : m.merge? op n = some k)
    (hv : I.value (.binary op (.monomial m) (.monomial n)) = some v) :
    I.value (.monomial k) = some v := by
  obtain ⟨hvar, h⟩ := merge?_cases h
  obtain ⟨a, b, ha, hb, hab⟩ := value_binary.mp hv
  obtain ⟨c, x, p, hc, hx, hp, rfl⟩ := value_monomial.mp ha
  obtain ⟨d, y, q, hd, hy, hq, rfl⟩ := value_monomial.mp hb
  have hpower : m.exponent = n.exponent → p = q := by
    intro hexp
    obtain rfl : x = y := by simpa [hx, hy] using congrArg Exact.get? hexp
    rw [hvar, hq] at hp
    exact (Option.some.inj hp).symm
  rcases h with ⟨rfl, hexp, rfl⟩ | ⟨rfl, hexp, rfl⟩ | ⟨rfl, rfl⟩
  · obtain rfl := hpower hexp
    cases hab
    refine value_monomial.mpr ⟨c + d, x, p, ?_, hx, hp, add_mul c d p⟩
    exact Exact.zip_get?_eq_some.mpr ⟨c, d, hc, hd, rfl⟩
  · obtain rfl := hpower hexp
    cases hab
    refine value_monomial.mpr ⟨c - d, x, p, ?_, hx, hp, sub_mul c d p⟩
    exact Exact.zip_get?_eq_some.mpr ⟨c, d, hc, hd, rfl⟩
  · rw [← hvar] at hq
    cases hab
    refine value_monomial.mpr ⟨c * d, x + y, p * q, ?_, ?_, PartialPower.power?_add hp hq,
      mul_mul_mul_comm c d p q⟩
    · exact Exact.zip_get?_eq_some.mpr ⟨c, d, hc, hd, rfl⟩
    · exact Exact.zip_get?_eq_some.mpr ⟨x, y, hx, hy, rfl⟩

/-- The coefficient of a monomial may be anything. -/
theorem tame_rescaled {m : Monomial (Exact K)} (c : Exact K) (h : I.Tame (.monomial m)) :
    I.Tame (.monomial { m with coefficient := c }) := by
  have hexp := tame_monomial.mp h
  exact tame_monomial.mpr hexp

theorem tame_merged [IsStrictOrderedRing K] {op : Operator} {m n k : Monomial (Exact K)}
    (h : m.merge? op n = some k) (hm : I.Tame (.monomial m)) (hn : I.Tame (.monomial n)) :
    I.Tame (.monomial k) := by
  obtain ⟨-, h⟩ := merge?_cases h
  obtain ⟨x, hx, hx0⟩ := tame_monomial.mp hm
  obtain ⟨y, hy, hy0⟩ := tame_monomial.mp hn
  rcases h with ⟨-, -, rfl⟩ | ⟨-, -, rfl⟩ | ⟨-, rfl⟩
  · exact tame_monomial.mpr ⟨x, hx, hx0⟩
  · exact tame_monomial.mpr ⟨x, hx, hx0⟩
  · refine tame_monomial.mpr ⟨x + y, ?_, add_pos hx0 hy0⟩
    exact Exact.zip_get?_eq_some.mpr ⟨x, y, hx, hy, rfl⟩

/-! ## Sums and differences -/

theorem value_zero_add (h : I.value (.binary .add (literal 0) r) = some v) :
    I.value r = some v := by
  obtain ⟨a, b, ha, hb, rfl⟩ := value_add.mp h
  rw [value_zero] at ha
  cases ha
  rw [hb, zero_add]

theorem value_add_zero (h : I.value (.binary .add l (literal 0)) = some v) :
    I.value l = some v := by
  obtain ⟨a, b, ha, hb, rfl⟩ := value_add.mp h
  rw [value_zero] at hb
  cases hb
  rw [ha, add_zero]

theorem value_add_self (h : I.value (.binary .add l l) = some v) :
    I.value (.binary .mul (literal 2) l) = some v := by
  obtain ⟨a, b, ha, hb, rfl⟩ := value_add.mp h
  rw [ha] at hb
  cases hb
  exact value_mul.mpr ⟨2, a, value_two, ha, two_mul a⟩

theorem value_sub_zero (h : I.value (.binary .sub l (literal 0)) = some v) :
    I.value l = some v := by
  obtain ⟨a, b, ha, hb, rfl⟩ := value_sub.mp h
  rw [value_zero] at hb
  cases hb
  rw [ha, sub_zero]

theorem value_zero_sub (h : I.value (.binary .sub (literal 0) r) = some v) :
    I.value (.negate r) = some v := by
  obtain ⟨a, b, ha, hb, rfl⟩ := value_sub.mp h
  rw [value_zero] at ha
  cases ha
  exact value_negate.mpr ⟨b, hb, (zero_sub b).symm⟩

theorem value_sub_self (h : I.value (.binary .sub l l) = some v) :
    I.value (literal 0) = some v := by
  obtain ⟨a, b, ha, hb, rfl⟩ := value_sub.mp h
  rw [ha] at hb
  cases hb
  rw [value_zero, sub_self]

/-! ## Products and quotients -/

theorem value_one_mul (h : I.value (.binary .mul (literal 1) r) = some v) :
    I.value r = some v := by
  obtain ⟨a, b, ha, hb, rfl⟩ := value_mul.mp h
  rw [value_one] at ha
  cases ha
  rw [hb, one_mul]

theorem value_mul_one (h : I.value (.binary .mul l (literal 1)) = some v) :
    I.value l = some v := by
  obtain ⟨a, b, ha, hb, rfl⟩ := value_mul.mp h
  rw [value_one] at hb
  cases hb
  rw [ha, mul_one]

theorem value_zero_mul (h : I.value (.binary .mul (literal 0) r) = some v) :
    I.value (literal 0) = some v := by
  obtain ⟨a, b, ha, hb, rfl⟩ := value_mul.mp h
  rw [value_zero] at ha
  cases ha
  rw [value_zero, zero_mul]

theorem value_mul_zero (h : I.value (.binary .mul l (literal 0)) = some v) :
    I.value (literal 0) = some v := by
  obtain ⟨a, b, ha, hb, rfl⟩ := value_mul.mp h
  rw [value_zero] at hb
  cases hb
  rw [value_zero, mul_zero]

theorem value_mul_self (h : I.value (.binary .mul l l) = some v) :
    I.value (.binary .pow l (literal 2)) = some v := by
  obtain ⟨a, b, ha, hb, rfl⟩ := value_mul.mp h
  rw [ha] at hb
  cases hb
  exact value_pow.mpr ⟨a, 2, ha, value_two, PartialPower.power?_two a⟩

theorem value_mul_monomial {x : Exact K} {m : Monomial (Exact K)}
    (h : I.value (.binary .mul (.number x) (.monomial m)) = some v) :
    I.value (.monomial { m with coefficient := Scalar.mul x m.coefficient }) = some v := by
  obtain ⟨a, b, ha, hb, rfl⟩ := value_mul.mp h
  obtain ⟨c, y, p, hc, hy, hp, rfl⟩ := value_monomial.mp hb
  rw [value_number] at ha
  refine value_monomial.mpr ⟨a * c, y, p, ?_, hy, hp, mul_assoc a c p⟩
  exact Exact.zip_get?_eq_some.mpr ⟨a, c, ha, hc, rfl⟩

theorem value_div_one (h : I.value (.binary .div l (literal 1)) = some v) :
    I.value l = some v := by
  obtain ⟨a, b, ha, hb, -, rfl⟩ := value_div.mp h
  rw [value_one] at hb
  cases hb
  rw [ha, div_one]

theorem value_monomial_div {x : Exact K} {m : Monomial (Exact K)}
    (h : I.value (.binary .div (.monomial m) (.number x)) = some v) :
    I.value (.monomial { m with coefficient := Scalar.div m.coefficient x }) = some v := by
  obtain ⟨a, b, ha, hb, hb0, rfl⟩ := value_div.mp h
  obtain ⟨c, y, p, hc, hy, hp, rfl⟩ := value_monomial.mp ha
  rw [value_number] at hb
  refine value_monomial.mpr ⟨c / b, y, p, ?_, hy, hp, div_mul_eq_mul_div c b p⟩
  exact Exact.zip_get?_eq_some.mpr ⟨c, b, hc, hb, if_neg hb0⟩

/-- A quotient that has a value does not divide by zero. -/
theorem value_div_self (h : I.value (.binary .div l l) = some v) :
    I.value (literal 1) = some v := by
  obtain ⟨a, b, ha, hb, hb0, rfl⟩ := value_div.mp h
  rw [ha] at hb
  cases hb
  rw [value_one, div_self hb0]

/-! ## Powers -/

theorem value_pow_zero (h : I.value (.binary .pow l (literal 0)) = some v) :
    I.value (literal 1) = some v := by
  obtain ⟨a, b, ha, hb, hp⟩ := value_pow.mp h
  rw [value_zero] at hb
  cases hb
  rw [value_one, ← hp, PartialPower.power?_zero]

theorem value_pow_one (h : I.value (.binary .pow l (literal 1)) = some v) :
    I.value l = some v := by
  obtain ⟨a, b, ha, hb, hp⟩ := value_pow.mp h
  rw [value_one] at hb
  cases hb
  rw [ha, ← hp, PartialPower.power?_one]

/-- A negative exponent is taken off a base other than zero. -/
theorem value_pow_negate (hbase : I.value l ≠ some 0)
    (h : I.value (.binary .pow l (.negate r)) = some v) :
    I.value (.binary .div (literal 1) (.binary .pow l r)) = some v := by
  obtain ⟨a, b, ha, hb, hp⟩ := value_pow.mp h
  obtain ⟨c, hc, rfl⟩ := value_negate.mp hb
  have ha0 : a ≠ 0 := by
    intro h0
    rw [h0] at ha
    exact hbase ha
  rw [PartialPower.power?_neg c ha0, Option.bind_eq_some_iff] at hp
  obtain ⟨x, hx, hdiv⟩ := hp
  have hpow := value_pow.mpr ⟨a, c, ha, hc, hx⟩
  exact value_binary.mpr ⟨1, x, value_one, hpow, hdiv⟩

/-! ## One rule -/

variable (I) in
/-- What the rules at a node need to keep its value: a base is not zero where a negative exponent
is taken off it, a remainder has the sign of its dividend where it is negated, and a monomial with
the exponent zero has the coefficient one. -/
def Allows : Expr (Exact K) → Prop
  | .binary .pow b (.negate _) => I.value b ≠ some 0
  | .negate (.binary .mod _ _) =>
    ∀ a b c, I.remainder? a b = some c → I.remainder? (-a) b = some (-c)
  | .monomial m => m.exponent.get? = some 0 → m.coefficient.get? = some 1
  | _ => True

theorem Tame.allows (h : I.Tame e) : I.Allows e := by
  unfold Allows
  split
  · -- a base that is zero is squared, and the exponent here is a negation
    exact (tame_binary.mp h).1.resolve_right fun h => by cases h
  · exact absurd (tame_binary.mp (tame_negate.mp h)).1 id
  · intro hzero
    obtain ⟨x, hx, hx0⟩ := tame_monomial.mp h
    rw [hx] at hzero
    cases hzero
    exact absurd hx0 (lt_irrefl 0)
  · trivial

/-- A rule keeps the value of the tree that it is applied to. -/
theorem value_of_contracts {target : String} (h : Contracts target e e') (hallows : I.Allows e)
    (hv : I.value e = some v) : I.value e' = some v := by
  cases h with
  | zeroPlus hl => rw [eq_literal hl] at hv; exact value_zero_add hv
  | plusZero hr => rw [eq_literal hr] at hv; exact value_add_zero hv
  | plusSelf hs => rw [← eq_of_repeats hs] at hv; exact value_add_self hv
  | plusNegated => exact value_add_negate hv
  | minusZero hr => rw [eq_literal hr] at hv; exact value_sub_zero hv
  | zeroMinus hl => rw [eq_literal hl] at hv; exact value_zero_sub hv
  | minusSelf hs => rw [← eq_of_same hs] at hv; exact value_sub_self hv
  | minusNegated => exact value_sub_negate hv
  | oneTimes hl => rw [eq_literal hl] at hv; exact value_one_mul hv
  | timesOne hr => rw [eq_literal hr] at hv; exact value_mul_one hv
  | zeroTimes hl => rw [eq_literal hl] at hv; exact value_zero_mul hv
  | timesZero hr => rw [eq_literal hr] at hv; exact value_mul_zero hv
  | timesSelf hs => rw [← eq_of_repeats hs] at hv; exact value_mul_self hv
  | timesPower hs _ => rw [← eq_of_same hs] at hv; exact value_pow_mul_pow hv
  | timesSum hop => exact value_mul_additive hop hv
  | timesMonomial => exact value_mul_monomial hv
  | overOne hr => rw [eq_literal hr] at hv; exact value_div_one hv
  | monomialOver => exact value_monomial_div hv
  | overSelf hs => rw [← eq_of_same hs] at hv; exact value_div_self hv
  | powerZero hr => rw [eq_literal hr] at hv; exact value_pow_zero hv
  | powerOne hr => rw [eq_literal hr] at hv; exact value_pow_one hv
  | powerNegated => exact value_pow_negate hallows hv
  | zeroCoefficient hm => exact value_zero_monomial hm hv
  | @zeroExponent m hm =>
    obtain ⟨c, x, p, hc, hx, hp, rfl⟩ := value_monomial.mp hv
    have hzero : m.exponent.get? = some 0 := by rw [Exact.eqv_natural.mp hm, Nat.cast_zero]
    have hone : m.coefficient.get? = some 1 := hallows hzero
    rw [hc] at hone
    cases hone
    rw [hzero] at hx
    cases hx
    rw [PartialPower.power?_zero] at hp
    cases hp
    rw [value_one, one_mul]
  | negativeCoefficient _ => exact value_negate_monomial hv
  | negatedNegation => exact value_negate_negate hv
  | negatedSum hop => exact value_negate_additive hop hv
  | negatedProduct hop =>
    rcases hop with hop | rfl
    · exact value_negate_multiplicative hop hv
    · exact value_negate_mod hallows hv
  | merged hm => exact value_merged hm hv
  | hoistedRight hpast _ _ => exact value_hoistedRight hpast hv
  | hoistedSum hin _ _ => exact value_hoistedSum hin hv
  | hoistedDifference hin _ _ => exact value_hoistedDifference hin hv
  | hoistedProduct hin _ _ => exact value_hoistedProduct hin hv

theorem tame_hoistedRight {op inner : Operator} {a b c : Expr (Exact K)}
    (hpast : op.commutesPast inner = true) (h : I.Tame (.binary op (.binary inner a b) c)) :
    I.Tame (.binary inner (.binary op a c) b) := by
  obtain ⟨-, hab, hc⟩ := tame_binary.mp h
  obtain ⟨-, ha, hb⟩ := tame_binary.mp hab
  rcases Bool.or_eq_true_iff.mp hpast with hpast | hpast
  · obtain ⟨hop, hin⟩ := Bool.and_eq_true_iff.mp hpast
    exact tame_binary.mpr ⟨admits_of_isAdditive hin,
      tame_binary.mpr ⟨admits_of_isAdditive hop, ha, hc⟩, hb⟩
  · obtain ⟨hop, hin⟩ := Bool.and_eq_true_iff.mp hpast
    exact tame_binary.mpr ⟨admits_of_isMultiplicative hin,
      tame_binary.mpr ⟨admits_of_isMultiplicative hop, ha, hc⟩, hb⟩

/-- A rule keeps a tree tame. -/
theorem tame_of_contracts [IsStrictOrderedRing K] {target : String} (h : Contracts target e e')
    (ht : I.Tame e) : I.Tame e' := by
  cases h with
  | zeroPlus _ | oneTimes _ => exact (tame_binary.mp ht).2.2
  | plusZero _ | minusZero _ | timesOne _ | overOne _ | powerOne _ => exact (tame_binary.mp ht).2.1
  | minusSelf _ | zeroTimes _ | timesZero _ | overSelf _ | powerZero _ | zeroCoefficient _
  | zeroExponent _ => exact tame_literal
  | plusSelf _ => exact tame_binary.mpr ⟨trivial, tame_literal, (tame_binary.mp ht).2.1⟩
  | plusNegated | minusNegated =>
    obtain ⟨-, hl, hb⟩ := tame_binary.mp ht
    exact tame_binary.mpr ⟨trivial, hl, tame_negate.mp hb⟩
  | zeroMinus _ => exact tame_negate.mpr (tame_binary.mp ht).2.2
  | timesSelf _ => exact tame_binary.mpr ⟨.inr rfl, (tame_binary.mp ht).2.1, tame_literal⟩
  | @timesPower a a' b c hs hne =>
    obtain ⟨-, hl, hr⟩ := tame_binary.mp ht
    obtain ⟨hbase, ha, hb⟩ := tame_binary.mp hl
    obtain ⟨hbase', -, hc⟩ := tame_binary.mp hr
    obtain rfl := eq_of_same hs
    refine tame_binary.mpr ⟨?_, ha, tame_binary.mpr ⟨trivial, hb, hc⟩⟩
    -- were both exponents 2, the powers would be equal
    rcases hbase with hbase | rfl
    · exact .inl hbase
    · rcases hbase' with hbase' | rfl
      · exact .inl hbase'
      · have hsame : (Expr.binary .pow a (literal 2)).same (.binary .pow a (literal 2)) = true :=
          Expr.same_self LawfulSign.same_self _
        rw [Expr.repeats, hsame] at hne
        cases hne
  | timesSum hop =>
    obtain ⟨-, hn, hbc⟩ := tame_binary.mp ht
    obtain ⟨-, hb, hc⟩ := tame_binary.mp hbc
    exact tame_binary.mpr ⟨admits_of_isAdditive hop, tame_binary.mpr ⟨trivial, hn, hb⟩,
      tame_binary.mpr ⟨trivial, hn, hc⟩⟩
  | timesMonomial => exact tame_rescaled _ (tame_binary.mp ht).2.2
  | monomialOver => exact tame_rescaled _ (tame_binary.mp ht).2.1
  | powerNegated =>
    obtain ⟨hbase, hl, hn⟩ := tame_binary.mp ht
    have hbase : I.value _ ≠ some 0 := hbase.resolve_right (fun h => by cases h)
    exact tame_binary.mpr ⟨trivial, tame_literal,
      tame_binary.mpr ⟨.inl hbase, hl, tame_negate.mp hn⟩⟩
  | negativeCoefficient _ => exact tame_negate.mpr (tame_rescaled _ ht)
  | negatedNegation => exact tame_negate.mp (tame_negate.mp ht)
  | negatedSum hop =>
    obtain ⟨-, hl, hr⟩ := tame_binary.mp (tame_negate.mp ht)
    exact tame_binary.mpr ⟨admits_of_isAdditive hop, tame_negate.mpr hl, tame_negate.mpr hr⟩
  | negatedProduct hop =>
    obtain ⟨hroot, hl, hr⟩ := tame_binary.mp (tame_negate.mp ht)
    rcases hop with hop | rfl
    · exact tame_binary.mpr ⟨admits_of_isMultiplicative hop, tame_negate.mpr hl, hr⟩
    · exact absurd hroot id
  | merged hm => exact tame_merged hm (tame_binary.mp ht).2.1 (tame_binary.mp ht).2.2
  | hoistedRight hpast _ _ => exact tame_hoistedRight hpast ht
  | hoistedSum hin _ _ =>
    obtain ⟨-, hab, hm⟩ := tame_binary.mp ht
    obtain ⟨-, ha, hb⟩ := tame_binary.mp hab
    exact tame_binary.mpr ⟨trivial, tame_binary.mpr ⟨admits_of_isAdditive hin, hm, hb⟩, ha⟩
  | hoistedDifference hin _ _ =>
    obtain ⟨-, hab, hm⟩ := tame_binary.mp ht
    obtain ⟨-, ha, hb⟩ := tame_binary.mp hab
    exact tame_binary.mpr
      ⟨trivial, tame_binary.mpr ⟨admits_of_isAdditive hin, tame_negate.mpr hm, hb⟩, ha⟩
  | hoistedProduct hin _ _ =>
    obtain ⟨-, hab, hm⟩ := tame_binary.mp ht
    obtain ⟨-, ha, hb⟩ := tame_binary.mp hab
    exact tame_binary.mpr ⟨trivial, tame_binary.mpr ⟨admits_of_isMultiplicative hin, hm, hb⟩, ha⟩

end Interpretation
end SymbolicAlgebra
