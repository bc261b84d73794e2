import Mathlib.Algebra.Order.Floor.Ring
import Mathlib.Algebra.Order.Field.Basic
import Mathlib.Data.Rat.Floor
import Mathlib.Tactic.Ring
import SymbolicAlgebra.Operator
import SymbolicAlgebra.Proofs.Scalar

/-!
# Exact numbers

`Exact K` is a number of an ordered field or no value at all. Its operations
neither round nor overflow; a division by zero and a power outside its domain
have no value. Trees over `Exact K` are rewritten by the same definitions as
trees over doubles.

A power is only assumed to obey the laws listed in `PartialPower`. On a field
with a floor, `integralPower` is a power with integral exponents.

Results:
* `eq_of_eqv`, `eq_of_same`: both equalities of leaves are equality.
* `remainder?_neg`: a remainder has the sign of its dividend.
* `result?_get?`: an operation on literals computes what the operator means.
* `power?_intCast`: the power of a number other than zero with an integral exponent.
* the instances `Scalar (Exact K)`, `LawfulSign (Exact K)` and `LawfulOne (Exact K)`.
-/
namespace SymbolicAlgebra

namespace Exact

variable {K : Type} [Field K] [LinearOrder K]

/-- The quotient by a number other than zero. -/
def divide? (a b : K) : Option K := if b = 0 then none else some (a / b)

variable [FloorRing K]

/-- The integer next to a number in the direction of zero. -/
def truncate (a : K) : ℤ := if 0 ≤ a then ⌊a⌋ else ⌈a⌉

/-- The remainder of truncated division by a number other than zero. -/
def remainder? (a b : K) : Option K :=
  if b = 0 then none else some (a - b * truncate (a / b))

variable [IsStrictOrderedRing K]

theorem truncate_neg (a : K) : truncate (-a) = -truncate a := by
  unfold truncate
  rcases lt_trichotomy a 0 with ha | rfl | ha
  · rw [if_pos (neg_nonneg.mpr ha.le), if_neg (not_le.mpr ha), Int.floor_neg]
  · simp
  · rw [if_neg (not_le.mpr (neg_neg_of_pos ha)), if_pos ha.le, Int.ceil_neg]

/-- A remainder has the sign of its dividend. -/
theorem remainder?_neg (a b : K) : remainder? (-a) b = (remainder? a b).map (- ·) := by
  unfold remainder?
  split
  · rfl
  · rw [neg_div, truncate_neg, Int.cast_neg, Option.map_some]
    congr 1
    ring

end Exact

/-- A power that need not be defined everywhere. -/
class PartialPower (K : Type) [Field K] [LinearOrder K] where
  power? : K → K → Option K
  power?_zero : ∀ a, power? a 0 = some 1
  power?_one : ∀ a, power? a 1 = some a
  power?_two : ∀ a, power? a 2 = some (a * a)
  power?_add : ∀ {a b c x y}, power? a b = some x → power? a c = some y →
    power? a (b + c) = some (x * y)
  power?_neg : ∀ {a} b, a ≠ 0 → power? a (-b) = (power? a b).bind (Exact.divide? 1)

/-- A number of `K`, or no value. -/
structure Exact (K : Type) where
  get? : Option K
deriving DecidableEq

namespace Exact

variable {K : Type}

/-- A partial operation on numbers that may have no value. -/
def zip (f : K → K → Option K) (x y : Exact K) : Exact K :=
  ⟨x.get?.bind fun a => y.get?.bind fun b => f a b⟩

theorem zip_get?_eq_some {x y : Exact K} {a : K} {f : K → K → Option K} :
    (zip f x y).get? = some a ↔ ∃ b c, x.get? = some b ∧ y.get? = some c ∧ f b c = some a := by
  simp [zip, Option.bind_eq_some_iff]

variable [Field K] [LinearOrder K] [FloorRing K] [PartialPower K]

instance : Scalar (Exact K) where
  natural n := ⟨some n⟩
  add := zip fun a b => some (a + b)
  sub := zip fun a b => some (a - b)
  mul := zip fun a b => some (a * b)
  div := zip divide?
  rem := zip remainder?
  pow := zip PartialPower.power?
  neg x := ⟨x.get?.map (- ·)⟩
  abs x := ⟨x.get?.map (|·|)⟩
  eqv x y := x.get?.any fun a => y.get? = some a
  same x y := x.get? = y.get?
  isNegative x := x.get?.any (· < 0)
  isWhole x := x.get?.any fun a => (⌊a⌋ : K) = a

variable {x y : Exact K} {a : K}

/-! ## Equality of leaves -/

theorem eq_of_same (h : Scalar.same x y = true) : x = y := by
  have hget : x.get? = y.get? := of_decide_eq_true h
  cases x; cases y; cases hget; rfl

theorem eq_of_eqv (h : Scalar.eqv x y = true) : x = y := by
  obtain ⟨a, ha, hy⟩ := (Option.any_eq_true _ _).mp h
  exact eq_of_same (decide_eq_true (ha.trans (of_decide_eq_true hy).symm))

/-- A number that equals a natural number has it as its value. -/
theorem eqv_natural {n : Nat} : Scalar.eqv x (Scalar.natural n) = true ↔ x.get? = some (n : K) := by
  have hn : (Scalar.natural n : Exact K).get? = some (n : K) := rfl
  constructor
  · intro h; rw [eq_of_eqv h, hn]
  · intro h
    simp [Scalar.eqv, h, hn]

theorem isNegative_eq_true_iff : Scalar.isNegative x = true ↔ ∃ a, x.get? = some a ∧ a < 0 := by
  simp [Scalar.isNegative, Option.any_eq_true]

instance [IsStrictOrderedRing K] : LawfulSign (Exact K) where
  same_self x := decide_eq_true rfl
  isNegative_of_same h := by rw [eq_of_same h]
  isNegative_neg {x} h := by
    obtain ⟨a, ha, hneg⟩ := isNegative_eq_true_iff.mp h
    simpa [Scalar.isNegative, Scalar.neg, ha] using hneg.le

instance [IsStrictOrderedRing K] : LawfulOne (Exact K) where
  eqv_one_of_same h := by
    rw [← eq_of_same h]
    exact eqv_natural.mpr rfl
  eqv_one_zero := by simp [Scalar.eqv, Scalar.natural]
  isNegative_one := by simp [Scalar.isNegative, Scalar.natural]

end Exact

/-! ## Operators -/

section
variable {K : Type} [Field K] [LinearOrder K] [PartialPower K]

/-- What an operator means, a remainder being read as `rem` says. -/
def Operator.meaning? (rem : K → K → Option K) : Operator → K → K → Option K
  | add, a, b => some (a + b)
  | sub, a, b => some (a - b)
  | mul, a, b => some (a * b)
  | div, a, b => Exact.divide? a b
  | mod, a, b => rem a b
  | pow, a, b => PartialPower.power? a b
  | equals, _, _ => none

/-- An operation on literals computes what the operator means, a remainder having the sign of its
dividend. -/
theorem Exact.result?_get? [FloorRing K] {op : Operator} {x y z : Exact K}
    {rem : K → K → Option K} (hop : op = .mod → rem = remainder?) (h : op.result? x y = some z) :
    z = zip (op.meaning? rem) x y := by
  cases op with
  | mod => cases h; rw [hop rfl]; rfl
  | equals => cases h
  | _ => cases h; rfl

end

/-! ## Powers -/

section
variable {K : Type} [Field K] [LinearOrder K] [PartialPower K]

theorem PartialPower.power?_natCast (a : K) (n : ℕ) : power? a (n : K) = some (a ^ n) := by
  induction n with
  | zero => rw [Nat.cast_zero, power?_zero, pow_zero]
  | succ n ih => rw [Nat.cast_succ, power?_add ih (power?_one a), pow_succ]

/-- The power of a number other than zero with an integral exponent. -/
theorem PartialPower.power?_intCast {a : K} (ha : a ≠ 0) (n : ℤ) :
    power? a (n : K) = some (a ^ n) := by
  cases n with
  | ofNat n => rw [Int.ofNat_eq_natCast, Int.cast_natCast, power?_natCast, zpow_natCast]
  | negSucc n =>
    have hpow : a ^ (n + 1) ≠ 0 := pow_ne_zero (n + 1) ha
    rw [Int.cast_negSucc, power?_neg _ ha, power?_natCast, Option.bind_some, Exact.divide?,
      if_neg hpow, zpow_negSucc, one_div]

end

/-! ## Integral exponents -/

section
variable {K : Type} [Field K] [LinearOrder K] [FloorRing K] {a b c x y : K}

/-- The power with an exponent that is an integer, and not negative where the base is zero. -/
def integralPower? (a b : K) : Option K :=
  if (⌊b⌋ : K) = b ∧ (a ≠ 0 ∨ 0 ≤ ⌊b⌋) then some (a ^ ⌊b⌋) else none

theorem integralPower?_eq_some (h : integralPower? a b = some x) :
    ∃ n : ℤ, b = n ∧ (a ≠ 0 ∨ 0 ≤ n) ∧ a ^ n = x := by
  unfold integralPower? at h
  split at h
  · rename_i hb
    exact ⟨⌊b⌋, hb.1.symm, hb.2, by simpa using h⟩
  · cases h

variable [IsStrictOrderedRing K]

theorem integralPower?_intCast {n : ℤ} (h : a ≠ 0 ∨ 0 ≤ n) :
    integralPower? a (n : K) = some (a ^ n) := by
  simp [integralPower?, h]

theorem integralPower?_add (hb : integralPower? a b = some x) (hc : integralPower? a c = some y) :
    integralPower? a (b + c) = some (x * y) := by
  obtain ⟨m, rfl, hm, rfl⟩ := integralPower?_eq_some hb
  obtain ⟨n, rfl, hn, rfl⟩ := integralPower?_eq_some hc
  rw [← Int.cast_add]
  by_cases ha : a = 0
  · have hm0 : 0 ≤ m := hm.resolve_left (absurd ha)
    have hn0 : 0 ≤ n := hn.resolve_left (absurd ha)
    obtain ⟨k, rfl⟩ := Int.eq_ofNat_of_zero_le hm0
    obtain ⟨l, rfl⟩ := Int.eq_ofNat_of_zero_le hn0
    rw [integralPower?_intCast (.inr (by omega)), ← Int.natCast_add, zpow_natCast, zpow_natCast,
      zpow_natCast, pow_add]
  · rw [integralPower?_intCast (.inl ha), zpow_add₀ ha]

theorem integralPower?_neg (b : K) (ha : a ≠ 0) :
    integralPower? a (-b) = (integralPower? a b).bind (Exact.divide? 1) := by
  by_cases hb : ∃ n : ℤ, b = n
  · obtain ⟨n, rfl⟩ := hb
    have hn : a ^ n ≠ 0 := zpow_ne_zero n ha
    rw [← Int.cast_neg, integralPower?_intCast (.inl ha), integralPower?_intCast (.inl ha),
      Option.bind_some, Exact.divide?, if_neg hn, zpow_neg, one_div]
  · -- neither exponent is an integer
    have hpow : integralPower? a b = none := by
      cases hx : integralPower? a b with
      | none => rfl
      | some x =>
        obtain ⟨n, hn, -⟩ := integralPower?_eq_some hx
        exact absurd ⟨n, hn⟩ hb
    rw [hpow, Option.bind_none]
    cases hx : integralPower? a (-b) with
    | none => rfl
    | some x =>
      obtain ⟨n, hn, -⟩ := integralPower?_eq_some hx
      exact absurd ⟨-n, by rw [Int.cast_neg, ← hn, neg_neg]⟩ hb

/-- A power with integral exponents obeys the laws. -/
@[reducible] def integralPower : PartialPower K where
  power? := integralPower?
  power?_zero a := by simpa using integralPower?_intCast (a := a) (n := 0) (.inr (le_refl _))
  power?_one a := by simpa using integralPower?_intCast (a := a) (n := 1) (.inr (by decide))
  power?_two a := by
    have h := integralPower?_intCast (a := a) (n := 2) (.inr (by decide))
    rw [zpow_ofNat, pow_two] at h
    exact_mod_cast h
  power?_add := integralPower?_add
  power?_neg := integralPower?_neg

instance : PartialPower ℚ := integralPower

end

end SymbolicAlgebra
