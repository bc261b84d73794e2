import Mathlib.Algebra.Order.Field.Power
import Mathlib.Data.Rat.Cast.Order
import Mathlib.Tactic.Linarith
import SymbolicAlgebra.Proofs.Binary64.Sign

/-!
# The rational number that a double is

A double that is neither infinite nor undefined is a rational number, and two
such doubles are the same number exactly when they compare as equal. For the
second half, a mantissa either has all its bits or stands with the least
exponent, so no number is written with two exponents.

Results:
* `rational?_of_beq`: equal doubles are the same number.
* `beq_of_rational?`: doubles that are the same number are equal.
-/
namespace SymbolicAlgebra.Binary64

open Float.Model Float.Model.UnpackedFloat

/-- The rational number that an unpacked float is, if it is one. -/
def rational? : UnpackedFloat → Option ℚ
  | .finite s m e _ => some (s.apply m * 2 ^ e)
  | .zero _ => some 0
  | .infinity _ | .notANumber => none

/-! ## Equal doubles -/

/-- Floats that compare as equal are the same number. -/
theorem rational?_of_compare {u v : UnpackedFloat} (h : u.compare v = some .eq) :
    rational? u = rational? v := by
  cases u with
  | notANumber => cases v <;> cases h
  | infinity s =>
    cases s <;> rcases v with ⟨_ | _⟩ | _ | ⟨_ | _⟩ | ⟨_ | _, _, _, _⟩ <;> first | rfl | cases h
  | zero s => rcases v with ⟨_ | _⟩ | _ | ⟨_ | _⟩ | ⟨_ | _, _, _, _⟩ <;> first | rfl | cases h
  | finite s m e hm =>
    cases v with
    | notANumber => cases s <;> cases h
    | infinity t => cases s <;> cases t <;> cases h
    | zero t => cases s <;> cases h
    | finite t n d hn => rw [eq_of_compare_finite h]

theorem rational?_of_beq {x y : Float} (h : (x == y) = true) :
    rational? x.toModel.unpack = rational? y.toModel.unpack := by
  have hc : (x.toModel.unpack.compare y.toModel.unpack == some .eq) = true := h
  exact rational?_of_compare (by simpa using hc)

theorem rational?_of_isNaN {x : Float} (h : x.isNaN = true) :
    rational? x.toModel.unpack = none := by
  have hx : x.toModel.unpack.isNaN = true := h
  cases hu : x.toModel.unpack with
  | notANumber => rfl
  | _ =>
    rw [hu] at hx
    cases hx

/-! ## Doubles that are the same number -/

/-- The mantissas and exponents of doubles: the mantissa has all its bits, or the exponent is the
least one. -/
structure Aligned (m : Nat) (e : Int) : Prop where
  mantissa_lt : m < 2 ^ 53
  exponent_ge : -1074 ≤ e
  full_or_least : 2 ^ 52 ≤ m ∨ e = -1074

/-- The bit before the fraction counts `2 ^ 52`. -/
theorem toNat_one_append (w : BitVec 52) : (1#1 ++ w).toNat = 2 ^ 52 + w.toNat := by
  rw [BitVec.toNat_append, ← Nat.shiftLeft_add_eq_or_of_lt w.isLt]
  rfl

/-- A finite double other than zero has the least exponent and lacks the bit before the fraction, or
it has that bit. -/
theorem bounds_of_unpack {x : Float.Model} {s : Sign} {m : Nat} {e : Int} {hm : 0 < m}
    (h : x.unpack = .finite s m e hm) :
    (m < 2 ^ 52 ∧ e = -1074) ∨ (2 ^ 52 ≤ m ∧ m < 2 ^ 53 ∧ -1074 ≤ e ∧ e ≤ 971) := by
  unfold Float.Model.unpack UnpackedFloat.unpack at h
  dsimp only at h
  have hfraction : (@unpackMantissa Format.binary64 x.toBits.toBitVec).toNat < 2 ^ 52 :=
    (@unpackMantissa Format.binary64 x.toBits.toBitVec).isLt
  have hexp : (@unpackExponent Format.binary64 x.toBits.toBitVec).toNat < 2 ^ 11 :=
    (@unpackExponent Format.binary64 x.toBits.toBitVec).isLt
  have hbias : Format.binary64.exponentBias = 1023 := rfl
  by_cases hlast : @unpackExponent Format.binary64 x.toBits.toBitVec = -1#_
  · -- infinite or undefined
    rw [if_pos hlast] at h
    by_cases hnone : @unpackMantissa Format.binary64 x.toBits.toBitVec = 0#_
    · rw [if_pos hnone] at h
      cases h
    · rw [if_neg hnone] at h
      cases h
  rw [if_neg hlast] at h
  by_cases hfirst : @unpackExponent Format.binary64 x.toBits.toBitVec = 0#_
  · rw [if_pos hfirst] at h
    by_cases hnone : @unpackMantissa Format.binary64 x.toBits.toBitVec = 0#_
    · rw [dif_pos hnone] at h
      cases h
    · rw [dif_neg hnone] at h
      cases h
      refine .inl ⟨hfraction, ?_⟩
      rw [hfirst]
      decide
  · rw [if_neg hfirst] at h
    cases h
    have hpos : (@unpackExponent Format.binary64 x.toBits.toBitVec).toNat ≠ 0 :=
      fun heq => hfirst (BitVec.eq_of_toNat_eq heq)
    have hlt : (@unpackExponent Format.binary64 x.toBits.toBitVec).toNat ≠ 2047 :=
      fun heq => hlast (BitVec.eq_of_toNat_eq heq)
    rw [toNat_one_append (@unpackMantissa Format.binary64 x.toBits.toBitVec), hbias]
    exact .inr ⟨by omega, by omega, by omega, by omega⟩

/-- A double is unpacked to an aligned mantissa. -/
theorem aligned_of_unpack {x : Float.Model} {s : Sign} {m : Nat} {e : Int} {hm : 0 < m}
    (h : x.unpack = .finite s m e hm) : Aligned m e := by
  have hbounds := bounds_of_unpack h
  exact ⟨by omega, by omega, by omega⟩

/-- No number has two aligned mantissas. -/
theorem Aligned.unique {m n : Nat} {d e : Int} (hm : Aligned m d) (hn : Aligned n e)
    (h : (m : ℚ) * 2 ^ d = n * 2 ^ e) (hle : d ≤ e) : m = n ∧ d = e := by
  obtain ⟨k, rfl⟩ := Int.le.dest hle
  have hpow : (2 : ℚ) ^ d ≠ 0 := zpow_ne_zero d two_ne_zero
  have hshift : m = n * 2 ^ k := by
    rw [zpow_add₀ two_ne_zero, zpow_natCast, mul_comm ((2 : ℚ) ^ d), ← mul_assoc] at h
    exact_mod_cast mul_right_cancel₀ hpow h
  cases k with
  | zero => exact ⟨by simpa using hshift, by simp⟩
  | succ k =>
    -- the greater exponent is not the least one, so its mantissa has all its bits
    have hfull : 2 ^ 52 ≤ n := hn.full_or_least.resolve_right (by have := hm.exponent_ge; omega)
    have hlt := hm.mantissa_lt
    have hle : 2 ^ 52 * 1 ≤ n * 2 ^ k := Nat.mul_le_mul hfull Nat.one_le_two_pow
    rw [pow_succ, ← mul_assoc] at hshift
    omega

/-- The sign and the magnitude of a number determine its mantissa and its exponent. -/
theorem Aligned.eq {m n : Nat} {d e : Int} (hm : Aligned m d) (hn : Aligned n e)
    (h : (m : ℚ) * 2 ^ d = n * 2 ^ e) : m = n ∧ d = e := by
  rcases Int.le_total d e with hle | hle
  · exact hm.unique hn h hle
  · obtain ⟨hmn, hde⟩ := hn.unique hm h.symm hle
    exact ⟨hmn.symm, hde.symm⟩

theorem magnitude_pos {m : Nat} (hm : 0 < m) (e : Int) : 0 < (m : ℚ) * 2 ^ e :=
  mul_pos (Nat.cast_pos.mpr hm) (zpow_pos two_pos e)

theorem rational?_positive {m : Nat} (e : Int) (hm : 0 < m) :
    rational? (.finite .positive m e hm) = some ((m : ℚ) * 2 ^ e) := rfl

theorem rational?_negative {m : Nat} (e : Int) (hm : 0 < m) :
    rational? (.finite .negative m e hm) = some (-((m : ℚ) * 2 ^ e)) :=
  congrArg some (by simp [Sign.apply])

/-- Finite floats other than zero that are the same number compare as equal. -/
theorem compare_finite {s t : Sign} {m n : Nat} {d e : Int} {hm : 0 < m} {hn : 0 < n}
    (hmd : Aligned m d) (hne : Aligned n e)
    (h : rational? (.finite s m d hm) = rational? (.finite t n e hn)) :
    (UnpackedFloat.finite s m d hm).compare (.finite t n e hn) = some .eq := by
  have hmpos := magnitude_pos hm d
  have hnpos := magnitude_pos hn e
  have hsame : s = t ∧ (m : ℚ) * 2 ^ d = n * 2 ^ e := by
    cases s <;> cases t
    case positive.positive => exact ⟨rfl, Option.some.inj h⟩
    case negative.negative =>
      rw [rational?_negative, rational?_negative] at h
      exact ⟨rfl, neg_inj.mp (Option.some.inj h)⟩
    -- numbers of different signs differ
    case positive.negative =>
      rw [rational?_positive, rational?_negative] at h
      have hvalue := Option.some.inj h
      linarith
    case negative.positive =>
      rw [rational?_negative, rational?_positive] at h
      have hvalue := Option.some.inj h
      linarith
  obtain ⟨rfl, hmag⟩ := hsame
  obtain ⟨rfl, rfl⟩ := hmd.eq hne hmag
  exact (compare_self_eq _).resolve_right fun hnan => by cases hnan

/-- A finite float other than zero is not zero as a number. -/
theorem rational?_ne_zero {s : Sign} {m : Nat} {e : Int} (hm : 0 < m) :
    rational? (.finite s m e hm) ≠ some 0 := by
  have hpos := magnitude_pos hm e
  cases s with
  | positive =>
    rw [rational?_positive]
    simpa using hpos.ne'
  | negative =>
    rw [rational?_negative]
    simpa using hpos.ne'

/-- Doubles that are the same number are equal. -/
theorem beq_of_rational? {x y : Float} {q : ℚ} (hx : rational? x.toModel.unpack = some q)
    (hy : rational? y.toModel.unpack = some q) : (x == y) = true := by
  have hcompare : x.toModel.unpack.compare y.toModel.unpack = some .eq := by
    cases hu : x.toModel.unpack with
    | notANumber | infinity _ =>
      rw [hu] at hx
      cases hx
    | zero s =>
      rw [hu] at hx
      cases hx
      cases hv : y.toModel.unpack with
      | notANumber | infinity _ =>
        rw [hv] at hy
        cases hy
      | zero t => rfl
      | finite t n e hn =>
        rw [hv] at hy
        exact absurd hy (rational?_ne_zero hn)
    | finite s m d hm =>
      cases hv : y.toModel.unpack with
      | notANumber | infinity _ =>
        rw [hv] at hy
        cases hy
      | zero t =>
        rw [hv] at hy
        cases hy
        rw [hu] at hx
        exact absurd hx (rational?_ne_zero hm)
      | finite t n e hn =>
        rw [hu] at hx
        rw [hv] at hy
        exact compare_finite (aligned_of_unpack hu) (aligned_of_unpack hv) (hx.trans hy.symm)
  show (x.toModel.unpack.compare y.toModel.unpack == some .eq) = true
  rw [hcompare]
  rfl

end SymbolicAlgebra.Binary64
