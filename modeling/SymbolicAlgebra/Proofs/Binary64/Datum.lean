import Mathlib.Tactic.Ring
import SymbolicAlgebra.Binary64.Instances
import SymbolicAlgebra.Proofs.Binary64.Rational

/-!
# A double taken apart

Printing takes the bits of a double apart on its own, comparing unpacks them.
Both find the same sign and the same magnitude.

Results:
* `ofFloat_eq`: the datum of a double is what its unpacked form says.
* `unpack_neg`, `ofFloat_neg`: negation changes the sign and nothing else.
* `ofFloat_of_le`, `ofFloat_of_nonneg`, `ofFloat_of_not_nonneg`: what comparing says
  of the sign and the magnitude.
* `isWhole_iff`: a double is whole if it is an integer as a number.
-/
namespace SymbolicAlgebra.Binary64

open Float.Model Float.Model.UnpackedFloat

/-! ## Fields of bits -/

theorem unpackSign_toNat (b : BitVec 64) :
    (@unpackSign Format.binary64 b).toNat = b.toNat / 2 ^ 63 := by
  have hb := b.isLt
  unfold unpackSign
  simp only [BitVec.toNat_cast, BitVec.extractLsb_toNat]
  show b.toNat >>> 63 % 2 ^ 1 = _
  rw [Nat.shiftRight_eq_div_pow]
  omega

theorem unpackExponent_toNat (b : BitVec 64) :
    (@unpackExponent Format.binary64 b).toNat = b.toNat / 2 ^ 52 % 2 ^ 11 := by
  simp only [unpackExponent, BitVec.toNat_cast, BitVec.extractLsb_toNat]
  show b.toNat >>> 52 % 2 ^ 11 = _
  rw [Nat.shiftRight_eq_div_pow]

theorem unpackMantissa_toNat (b : BitVec 64) :
    (@unpackMantissa Format.binary64 b).toNat = b.toNat % 2 ^ 52 := by
  simp only [unpackMantissa, BitVec.toNat_cast, BitVec.extractLsb_toNat]
  show b.toNat >>> 0 % 2 ^ 52 = _
  rw [Nat.shiftRight_zero]

theorem toNat_packComponents (s : Sign) (e : BitVec 11) (m : BitVec 52) :
    (packComponents Format.binary64 s e m : BitVec 64).toNat =
      (s.toBitVec.toNat * 2 ^ 11 + e.toNat) * 2 ^ 52 + m.toNat := by
  show ((s.toBitVec ++ e) ++ m).toNat = _
  rw [BitVec.toNat_append, BitVec.toNat_append, ← Nat.shiftLeft_add_eq_or_of_lt m.isLt,
    ← Nat.shiftLeft_add_eq_or_of_lt e.isLt, Nat.shiftLeft_eq, Nat.shiftLeft_eq]

theorem unpackExponent_packComponents (s : Sign) (e : BitVec 11) (m : BitVec 52) :
    @unpackExponent Format.binary64 (packComponents Format.binary64 s e m) = e := by
  have he := e.isLt
  have hm := m.isLt
  refine BitVec.eq_of_toNat_eq ((unpackExponent_toNat _).trans ?_)
  rw [toNat_packComponents]
  omega

theorem unpackMantissa_packComponents (s : Sign) (e : BitVec 11) (m : BitVec 52) :
    @unpackMantissa Format.binary64 (packComponents Format.binary64 s e m) = m := by
  have hm := m.isLt
  refine BitVec.eq_of_toNat_eq ((unpackMantissa_toNat _).trans ?_)
  rw [toNat_packComponents]
  omega

theorem ofBitVec_toBitVec (s : Sign) : Sign.ofBitVec s.toBitVec = s := by
  cases s <;> rfl

/-! ## The datum of a double -/

/-- Whether a sign is the negative one. -/
def isMinus : Sign → Bool
  | .negative => true
  | .positive => false

/-- What an unpacked float is as a whole multiple of the least positive double. -/
def datum : UnpackedFloat → Datum
  | .infinity s => .infinite (isMinus s)
  | .notANumber => .undefined
  | .zero s => .finite (isMinus s) 0
  | .finite s m e _ => .finite (isMinus s) (m * 2 ^ (e + 1074).toNat)

theorem datum_finite (s : Sign) {m : Nat} (e : Int) (hm : 0 < m) :
    datum (.finite s m e hm) = .finite (isMinus s) (m * 2 ^ (e + 1074).toNat) := rfl

theorem isMinus_ofBitVec (b : BitVec 1) : isMinus (Sign.ofBitVec b) = decide (1 ≤ b.toNat) := by
  have hcases : b = 0#1 ∨ b = 1#1 := by
    have := b.isLt
    rcases (by omega : b.toNat = 0 ∨ b.toNat = 1) with h | h
    · exact .inl (BitVec.eq_of_toNat_eq h)
    · exact .inr (BitVec.eq_of_toNat_eq h)
  rcases hcases with rfl | rfl <;> rfl

/-- The sign bit is set if the bits are at least `2 ^ 63` as a number. -/
theorem isMinus_unpackSign (x : Float) :
    isMinus (Sign.ofBitVec (@unpackSign Format.binary64 x.toModel.toBits.toBitVec)) =
      decide (Nat.pow 2 63 ≤ x.toBits.toNat) := by
  have hbits : x.toBits.toNat < 2 ^ 64 := x.toBits.toBitVec.isLt
  have hsign : (@unpackSign Format.binary64 x.toModel.toBits.toBitVec).toNat =
      x.toBits.toNat / 2 ^ 63 := unpackSign_toNat _
  rw [isMinus_ofBitVec, hsign]
  refine decide_eq_decide.mpr ?_
  show _ ↔ 2 ^ 63 ≤ _
  omega

theorem unpackExponent_toBits (x : Float) :
    (@unpackExponent Format.binary64 x.toModel.toBits.toBitVec).toNat =
      x.toBits.toNat / Nat.pow 2 52 % Nat.pow 2 11 := unpackExponent_toNat _

theorem unpackMantissa_toBits (x : Float) :
    (@unpackMantissa Format.binary64 x.toModel.toBits.toBitVec).toNat =
      x.toBits.toNat % Nat.pow 2 52 := unpackMantissa_toNat _

theorem unpackExponent_eq_last (x : Float) :
    @unpackExponent Format.binary64 x.toModel.toBits.toBitVec = -1#11 ↔
      x.toBits.toNat / Nat.pow 2 52 % Nat.pow 2 11 = Nat.pow 2 11 - 1 := by
  rw [← unpackExponent_toBits, ← BitVec.toNat_inj]
  rfl

theorem unpackExponent_eq_zero (x : Float) :
    @unpackExponent Format.binary64 x.toModel.toBits.toBitVec = 0#11 ↔
      x.toBits.toNat / Nat.pow 2 52 % Nat.pow 2 11 = 0 := by
  rw [← unpackExponent_toBits, ← BitVec.toNat_inj]
  rfl

theorem unpackMantissa_eq_zero (x : Float) :
    @unpackMantissa Format.binary64 x.toModel.toBits.toBitVec = 0#52 ↔
      x.toBits.toNat % Nat.pow 2 52 = 0 := by
  rw [← unpackMantissa_toBits, ← BitVec.toNat_inj]
  rfl

/-- Printing reads the same number from the bits of a double as comparing. -/
theorem ofFloat_eq (x : Float) : Datum.ofFloat x = datum x.toModel.unpack := by
  unfold Datum.ofFloat Float.Model.unpack UnpackedFloat.unpack
  dsimp only
  rw [← isMinus_unpackSign]
  by_cases hlast : x.toBits.toNat / Nat.pow 2 52 % Nat.pow 2 11 = Nat.pow 2 11 - 1
  · rw [if_pos hlast, if_pos ((unpackExponent_eq_last x).mpr hlast)]
    by_cases hman : x.toBits.toNat % Nat.pow 2 52 = 0
    · rw [if_pos hman, if_pos ((unpackMantissa_eq_zero x).mpr hman)]
      rfl
    · rw [if_neg hman, if_neg ((unpackMantissa_eq_zero x).not.mpr hman)]
      rfl
  rw [if_neg hlast, if_neg ((unpackExponent_eq_last x).not.mpr hlast)]
  by_cases hfirst : x.toBits.toNat / Nat.pow 2 52 % Nat.pow 2 11 = 0
  · rw [if_pos hfirst, if_pos ((unpackExponent_eq_zero x).mpr hfirst)]
    by_cases hman : x.toBits.toNat % Nat.pow 2 52 = 0
    · rw [dif_pos ((unpackMantissa_eq_zero x).mpr hman), hman]
      rfl
    · rw [dif_neg ((unpackMantissa_eq_zero x).not.mpr hman), datum_finite,
        (unpackExponent_eq_zero x).mpr hfirst, unpackMantissa_toBits]
      show _ = Datum.finite _ (_ * 2 ^ 0)
      rw [Nat.pow_zero, Nat.mul_one]
  · rw [if_neg hfirst, if_neg ((unpackExponent_eq_zero x).not.mpr hfirst), datum_finite,
      toNat_one_append, unpackMantissa_toBits]
    have hbias : (Format.binary64.exponentBias : Int) = 1023 := rfl
    have hshift : ((@unpackExponent Format.binary64 x.toModel.toBits.toBitVec).toNat -
        ((Format.binary64.exponentBias : Int) + (52 : Nat)) + 1074).toNat =
        x.toBits.toNat / Nat.pow 2 52 % Nat.pow 2 11 - 1 := by
      rw [unpackExponent_toBits, hbias]
      omega
    rw [hshift]
    rfl

/-! ## Negation -/

theorem unpackSign_packComponents (s : Sign) (e : BitVec 11) (m : BitVec 52) :
    Sign.ofBitVec (@unpackSign Format.binary64 (packComponents Format.binary64 s e m)) = s := by
  rw [signBit_packComponents, ofBitVec_toBitVec]

/-- A mantissa with all its bits is packed without its first one. -/
theorem pack_full {s : Sign} {m : Nat} {e : Int} {hm : 0 < m} (hfull : 2 ^ 52 ≤ m)
    (hlt : m < 2 ^ 53) (hle : e ≤ 971) : UnpackedFloat.pack Format.binary64 (.finite s m e hm) =
      packComponents Format.binary64 s (BitVec.ofNat 11 (e + 1023 + 52).toNat)
        (BitVec.ofNat 52 m) := by
  have hlog : m.log2 = 52 := (Nat.log2_eq_iff (by omega)).mpr ⟨hfull, hlt⟩
  unfold UnpackedFloat.pack
  dsimp only
  rw [hlog]
  refine (if_neg ?_).trans (if_pos rfl)
  show ¬ 2 ^ 11 ≤ (e + 1023 + 52).toNat + 1
  omega

/-- A mantissa that lacks bits is packed with the least exponent. -/
theorem pack_least {s : Sign} {m : Nat} {hm : 0 < m} (hlt : m < 2 ^ 52) :
    UnpackedFloat.pack Format.binary64 (.finite s m (-1074) hm) =
      packComponents Format.binary64 s 0#11 (BitVec.ofNat 52 m) := by
  have hlog : ¬ m.log2 + 1 = 53 := by
    have := (Nat.log2_lt (by omega)).mpr hlt
    omega
  unfold UnpackedFloat.pack
  exact (if_neg (by decide)).trans (if_neg hlog)

theorem unpack_pack_full {s : Sign} {m : Nat} {e : Int} {hm : 0 < m} (hfull : 2 ^ 52 ≤ m)
    (hlt : m < 2 ^ 53) (hge : -1074 ≤ e) (hle : e ≤ 971) :
    (Float.Model.pack (.finite s m e hm)).unpack = .finite s m e hm := by
  have hexp : (BitVec.ofNat 11 (e + 1023 + 52).toNat).toNat = (e + 1023 + 52).toNat := by
    rw [BitVec.toNat_ofNat]
    omega
  have hlast : BitVec.ofNat 11 (e + 1023 + 52).toNat ≠ -1#11 := fun h => by
    have htoNat := congrArg BitVec.toNat h
    rw [hexp] at htoNat
    change _ = 2047 at htoNat
    omega
  have hfirst : BitVec.ofNat 11 (e + 1023 + 52).toNat ≠ 0#11 := fun h => by
    have htoNat := congrArg BitVec.toNat h
    rw [hexp] at htoNat
    change _ = 0 at htoNat
    omega
  show UnpackedFloat.unpack Format.binary64 (UnpackedFloat.pack Format.binary64 _) = _
  rw [pack_full hfull hlt hle]
  unfold UnpackedFloat.unpack
  dsimp only
  rw [if_neg (by rwa [unpackExponent_packComponents]),
    if_neg (by rwa [unpackExponent_packComponents])]
  congr 1
  · exact unpackSign_packComponents s _ _
  · rw [unpackMantissa_packComponents, toNat_one_append, BitVec.toNat_ofNat]
    omega
  · rw [unpackExponent_packComponents, hexp]
    show _ - ((1023 : Int) + 52) = _
    omega

theorem unpack_pack_least {s : Sign} {m : Nat} {hm : 0 < m} (hlt : m < 2 ^ 52) :
    (Float.Model.pack (.finite s m (-1074) hm)).unpack = .finite s m (-1074) hm := by
  have hman : (BitVec.ofNat 52 m).toNat = m := by
    rw [BitVec.toNat_ofNat]
    omega
  have hne : BitVec.ofNat 52 m ≠ 0#52 := fun h => by
    have htoNat := congrArg BitVec.toNat h
    rw [hman] at htoNat
    change m = 0 at htoNat
    omega
  show UnpackedFloat.unpack Format.binary64 (UnpackedFloat.pack Format.binary64 _) = _
  rw [pack_least hlt]
  unfold UnpackedFloat.unpack
  dsimp only
  rw [if_neg (by rw [unpackExponent_packComponents]; decide),
    if_pos (unpackExponent_packComponents s _ _),
    dif_neg (by rwa [unpackMantissa_packComponents])]
  congr 1
  · exact unpackSign_packComponents s _ _
  · rw [unpackMantissa_packComponents]
    exact hman
  · rw [unpackExponent_packComponents]
    rfl

/-- Negation changes the sign of what is unpacked and nothing else. -/
theorem unpack_neg (x : Float) : (-x).toModel.unpack = x.toModel.unpack.neg := by
  show (Float.Model.pack x.toModel.unpack.neg).unpack = x.toModel.unpack.neg
  cases hx : x.toModel.unpack with
  | notANumber => rfl
  | infinity s => cases s <;> rfl
  | zero s => cases s <;> rfl
  | finite s m e hm =>
    rcases bounds_of_unpack hx with ⟨hlt, rfl⟩ | ⟨hfull, hlt, hge, hle⟩
    · exact unpack_pack_least hlt
    · exact unpack_pack_full hfull hlt hge hle

theorem isMinus_neg (s : Sign) : isMinus (-s) = !isMinus s := by
  cases s <;> rfl

/-- Negation keeps the magnitude of a finite double. -/
theorem ofFloat_neg {x : Float} {negative : Bool} {units : Nat}
    (h : Datum.ofFloat x = .finite negative units) :
    Datum.ofFloat (-x) = .finite (!negative) units := by
  rw [ofFloat_eq] at h ⊢
  rw [unpack_neg]
  cases hx : x.toModel.unpack with
  | notANumber | infinity s =>
    rw [hx] at h
    cases h
  | zero s | finite s m e hm =>
    rw [hx] at h
    cases h
    show Datum.finite (isMinus (-s)) _ = _
    rw [isMinus_neg]

/-! ## Order -/

theorem le_iff_compare {x y : Float} :
    x ≤ y ↔ (x.toModel.unpack.compare y.toModel.unpack).any (·.isLE) = true :=
  ⟨fun h => of_decide_eq_true (p := x.toModel ≤ y.toModel) h, fun h => decide_eq_true h⟩

/-- Of two positive numbers the greater has no fewer units. -/
theorem units_le_of_compare {m n : Nat} {d e : Int} (hm : Aligned m d) (hn : Aligned n e)
    (h : ((compare d e).then (compare m n)).isLE = true) :
    m * 2 ^ (d + 1074).toNat ≤ n * 2 ^ (e + 1074).toNat := by
  have hd := hm.exponent_ge
  rcases Int.lt_trichotomy d e with hlt | rfl | hgt
  · -- the greater exponent is not the least one, so its mantissa has all its bits
    have hfull : 2 ^ 52 ≤ n := hn.full_or_least.resolve_right (by omega)
    calc m * 2 ^ (d + 1074).toNat ≤ 2 ^ 53 * 2 ^ (d + 1074).toNat :=
          Nat.mul_le_mul_right _ hm.mantissa_lt.le
      _ = 2 ^ 52 * 2 ^ ((d + 1074).toNat + 1) := by rw [Nat.pow_succ]; ring
      _ ≤ n * 2 ^ (e + 1074).toNat :=
          Nat.mul_le_mul hfull (Nat.pow_le_pow_right (by omega) (by omega))
  · have hle : m ≤ n := by
      have hself : compare d d = .eq := Std.ReflCmp.compare_self
      rw [hself] at h
      exact Nat.isLE_compare.mp h
    exact Nat.mul_le_mul_right _ hle
  · have hcompare : compare d e = .gt := by
      exact Int.compare_eq_gt.mpr hgt
    rw [hcompare] at h
    cases h

/-- A double that is at least `0.0001` has a ten thousandth of the units of one. -/
theorem ofFloat_of_le {x : Float} (hx : x.isFinite = true) (h : 0.0001 ≤ x) :
    ∃ units, Datum.ofFloat x = .finite false units ∧ one ≤ units * 10 ^ 4 := by
  obtain ⟨m, e, hm, hunpack, hunits⟩ : ∃ m e, ∃ hm : 0 < m,
      (0.0001 : Float).toModel.unpack = .finite .positive m e hm ∧
        one ≤ m * 2 ^ (e + 1074).toNat * 10 ^ 4 :=
    ⟨_, _, _, rfl, by decide +kernel⟩
  have hcompare := le_iff_compare.mp h
  have hx : x.toModel.unpack.isFinite = true := hx
  rw [hunpack] at hcompare
  rw [ofFloat_eq]
  cases hu : x.toModel.unpack with
  | notANumber | infinity s =>
    rw [hu] at hx
    cases hx
  | zero s =>
    rw [hu] at hcompare
    cases hcompare
  | finite s n d hn =>
    rw [hu] at hcompare
    cases s with
    | negative => cases hcompare
    | positive =>
      have hle := units_le_of_compare (aligned_of_unpack hunpack) (aligned_of_unpack hu) hcompare
      exact ⟨n * 2 ^ (d + 1074).toNat, rfl, hunits.trans (Nat.mul_le_mul_right _ hle)⟩

/-- A finite double that is not below zero has a negative sign only if it is zero. -/
theorem ofFloat_of_nonneg {x : Float} (hx : x.isFinite = true) (h : 0.0 ≤ x) :
    ∃ negative units, Datum.ofFloat x = .finite negative units ∧
      (negative = true → units = 0) := by
  have hzero : (0.0 : Float).toModel.unpack = .zero .positive := rfl
  have hcompare := le_iff_compare.mp h
  have hx : x.toModel.unpack.isFinite = true := hx
  rw [hzero] at hcompare
  rw [ofFloat_eq]
  cases hu : x.toModel.unpack with
  | notANumber | infinity s =>
    rw [hu] at hx
    cases hx
  | zero s => exact ⟨_, 0, rfl, fun _ => rfl⟩
  | finite s n d hn =>
    rw [hu] at hcompare
    cases s with
    | negative => cases hcompare
    | positive => exact ⟨false, n * 2 ^ (d + 1074).toNat, rfl, nofun⟩

/-- A double that is below zero and its negation have the same magnitude. -/
theorem ofFloat_of_not_nonneg {x : Float} (h : ¬ 0.0 ≤ x) (hx : (-x).isFinite = true) :
    ∃ units, units ≠ 0 ∧ Datum.ofFloat x = .finite true units ∧
      Datum.ofFloat (-x) = .finite false units := by
  have hzero : (0.0 : Float).toModel.unpack = .zero .positive := rfl
  have hx : (-x).toModel.unpack.isFinite = true := hx
  rw [le_iff_compare, hzero] at h
  rw [unpack_neg] at hx
  have hdatum := ofFloat_eq x
  cases hu : x.toModel.unpack with
  | notANumber | infinity s =>
    rw [hu] at hx
    cases hx
  | zero s =>
    rw [hu] at h
    exact absurd rfl h
  | finite s n d hn =>
    rw [hu] at h hdatum
    cases s with
    | positive => exact absurd rfl h
    | negative =>
      exact ⟨n * 2 ^ (d + 1074).toNat, Nat.ne_of_gt (Nat.mul_pos hn (Nat.two_pow_pos _)), hdatum,
        ofFloat_neg hdatum⟩

/-! ## Whole doubles -/

theorem cast_one : (one : ℚ) = 2 ^ ((1074 : ℕ) : ℤ) := by
  unfold one
  generalize 1074 = n
  rw [Nat.pow_eq, Nat.cast_pow, Nat.cast_two, zpow_natCast]

/-- A double with a datum is a number: its magnitude counts the least positive double. -/
theorem rational?_of_ofFloat {x : Float} {negative : Bool} {units : Nat}
    (h : Datum.ofFloat x = .finite negative units) :
    rational? x.toModel.unpack =
      some (if negative then -((units : ℚ) / one) else (units : ℚ) / one) := by
  rw [ofFloat_eq] at h
  cases hu : x.toModel.unpack with
  | notANumber | infinity s =>
    rw [hu] at h
    cases h
  | zero s =>
    rw [hu] at h
    cases h
    rw [Nat.cast_zero, zero_div, neg_zero, ite_self]
    rfl
  | finite s m e hm =>
    rw [hu] at h
    cases h
    have hexp : ((e + 1074).toNat : ℤ) = e + 1074 :=
      Int.toNat_of_nonneg (by have := (aligned_of_unpack hu).exponent_ge; omega)
    have hunits : ((m * 2 ^ (e + 1074).toNat : Nat) : ℚ) / one = m * 2 ^ e := by
      rw [cast_one, Nat.cast_ofNat, Nat.cast_mul, Nat.cast_pow, Nat.cast_two, ← zpow_natCast, hexp,
        mul_div_assoc, ← zpow_sub₀ two_ne_zero, add_sub_cancel_right]
    rw [hunits]
    cases s with
    | positive => exact rational?_positive e hm
    | negative => exact rational?_negative e hm

/-- The whole doubles are the integers among them. -/
theorem isWhole_iff {x : Float} :
    isWhole x = true ↔ ∃ k : ℤ, rational? x.toModel.unpack = some (k : ℚ) := by
  unfold isWhole
  cases hx : Datum.ofFloat x with
  | infinite _ | undefined =>
    refine iff_of_false (by simp) ?_
    rintro ⟨k, hk⟩
    rw [ofFloat_eq] at hx
    cases hu : x.toModel.unpack with
    | notANumber | infinity _ => rw [hu] at hk; cases hk
    | zero _ | finite _ _ _ _ => rw [hu] at hx; cases hx
  | finite negative units =>
    have hpos : (one : ℚ) ≠ 0 := by
      rw [cast_one]
      exact zpow_ne_zero _ two_ne_zero
    rw [rational?_of_ofFloat hx]
    simp only [beq_iff_eq, Option.some.injEq]
    constructor
    · intro h
      obtain ⟨k, hk⟩ := Nat.dvd_of_mod_eq_zero h
      rw [hk, Nat.cast_mul, mul_div_cancel_left₀ _ hpos]
      cases negative with
      | false => exact ⟨k, by simp⟩
      | true => exact ⟨-k, by simp⟩
    · rintro ⟨k, hk⟩
      have habs : (units : ℚ) / one = (k.natAbs : ℚ) := by
        have hnonneg : (0 : ℚ) ≤ units / one := div_nonneg (Nat.cast_nonneg _) (Nat.cast_nonneg _)
        rw [Nat.cast_natAbs, Int.cast_abs, ← hk]
        cases negative with
        | false => exact (abs_of_nonneg hnonneg).symm
        | true => exact ((abs_neg _).trans (abs_of_nonneg hnonneg)).symm
      rw [div_eq_iff hpos] at habs
      have hunits : units = k.natAbs * one := by exact_mod_cast habs
      rw [hunits]
      exact Nat.mul_mod_left _ _
end SymbolicAlgebra.Binary64
