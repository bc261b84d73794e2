import SymbolicAlgebra.Binary64.Instances
import SymbolicAlgebra.Proofs.Scalar

/-!
# The sign of a double

A double is negative when it is below zero: a negative infinity or a negative
finite number other than zero. The laws of `LawfulSign` hold of every double,
the undefined one and the negative zero included.

Results:
* `isNegative_eq`: which unpacked floats are below zero.
* `isBelowZero_unpack`: a float below zero has its sign bit set.
* `compare_symm`: floats compare as equal in either order.
* the instances `LawfulSign Float` and `LawfulOne Float`.
-/
namespace SymbolicAlgebra.Binary64

open Float.Model Float.Model.UnpackedFloat

/-- Whether an unpacked float is below zero. -/
def isBelowZero : UnpackedFloat → Bool
  | .infinity .negative | .finite .negative _ _ _ => true
  | _ => false

theorem lt_zero_eq (u : UnpackedFloat) (s : Sign) : u.lt (.zero s) = isBelowZero u := by
  cases u with
  | infinity t => cases t <;> rfl
  | notANumber => rfl
  | zero t => rfl
  | finite t m e hm => cases t <;> rfl

/-- A double is negative exactly when its unpacked form is below zero. -/
theorem isNegative_eq (x : Float) : Scalar.isNegative x = isBelowZero x.toModel.unpack := by
  have hzero : (0.0 : Float).toModel.unpack = .zero .positive := rfl
  rw [← lt_zero_eq _ .positive, ← hzero]
  exact Bool.decide_eq_true.trans Bool.decide_eq_true

theorem compare_self_eq (u : UnpackedFloat) :
    u.compare u = some .eq ∨ u = .notANumber := by
  cases u with
  | infinity t => cases t <;> exact .inl rfl
  | notANumber => exact .inr rfl
  | zero t => exact .inl rfl
  | finite t m e hm =>
    left
    unfold UnpackedFloat.compare
    cases t <;> simp

/-- Floats that compare as equal are below zero together. -/
theorem isBelowZero_of_compare {u v : UnpackedFloat} (h : u.compare v = some .eq) :
    isBelowZero u = isBelowZero v := by
  cases u with
  | notANumber => cases v <;> cases h
  | infinity s =>
    cases s <;> rcases v with ⟨_ | _⟩ | _ | ⟨_ | _⟩ | ⟨_ | _, _, _, _⟩ <;> first | rfl | cases h
  | zero s => rcases v with ⟨_ | _⟩ | _ | ⟨_ | _⟩ | ⟨_ | _, _, _, _⟩ <;> first | rfl | cases h
  | finite s m e hm =>
    cases s <;> rcases v with ⟨_ | _⟩ | _ | ⟨_ | _⟩ | ⟨_ | _, _, _, _⟩ <;> first | rfl | cases h

/-- Finite floats other than zero compare as equal only if they are the same. -/
theorem eq_of_compare_finite {s t : Sign} {m n : Nat} {d e : Int} {hm : 0 < m} {hn : 0 < n}
    (h : (UnpackedFloat.finite s m d hm).compare (.finite t n e hn) = some .eq) :
    UnpackedFloat.finite s m d hm = .finite t n e hn := by
  have hparts : s = t ∧ (compare d e).then (compare m n) = .eq := by
    cases s <;> cases t
    case positive.positive => exact ⟨rfl, Option.some.inj h⟩
    case negative.negative => exact ⟨rfl, Ordering.swap_eq_eq.mp (Option.some.inj h)⟩
    all_goals cases h
  obtain ⟨rfl, hthen⟩ := hparts
  obtain ⟨rfl, rfl⟩ : d = e ∧ m = n := by simpa [Ordering.then_eq_eq] using hthen
  rfl

/-- Floats compare as equal in either order. -/
theorem compare_symm {u v : UnpackedFloat} (h : u.compare v = some .eq) :
    v.compare u = some .eq := by
  cases u with
  | notANumber => cases v <;> cases h
  | infinity s =>
    cases s <;> rcases v with ⟨_ | _⟩ | _ | ⟨_ | _⟩ | ⟨_ | _, _, _, _⟩ <;> first | rfl | cases h
  | zero s => rcases v with ⟨_ | _⟩ | _ | ⟨_ | _⟩ | ⟨_ | _, _, _, _⟩ <;> first | rfl | cases h
  | finite s m e hm =>
    cases v with
    | notANumber => cases s <;> cases h
    | infinity t => cases s <;> cases t <;> cases h
    | zero t => cases s <;> cases h
    | finite t n d hn =>
      have hsame := eq_of_compare_finite h
      rwa [hsame] at h ⊢

/-! ## Negation -/

theorem signBit_packComponents (spec : Format) (s : Sign) (e : BitVec spec.exponentBits)
    (m : BitVec spec.mantissaBitsWithoutImplicit) :
    unpackSign (packComponents spec s e m) = s.toBitVec := by
  apply BitVec.eq_of_getLsbD_eq
  intro i hi
  obtain rfl : i = 0 := by omega
  unfold unpackSign packComponents
  simp [BitVec.getLsbD_append, BitVec.getElem_append]

/-- Whatever a float with positive sign is packed to, the sign bit is clear. -/
theorem signBit_pack (spec : Format) (m : Nat) (e : Int) (hm : 0 < m) :
    unpackSign (UnpackedFloat.pack spec (.finite .positive m e hm)) = 0#1 := by
  unfold UnpackedFloat.pack
  dsimp only
  split
  · exact signBit_packComponents spec .positive _ _
  · split
    · exact signBit_packComponents spec .positive _ _
    · exact signBit_packComponents spec .positive _ _

/-- Whether an unpacked float has no minus sign. -/
def Unsigned : UnpackedFloat → Prop
  | .infinity s | .zero s | .finite s _ _ _ => s = .positive
  | .notANumber => True

theorem Unsigned.isBelowZero {u : UnpackedFloat} (h : Unsigned u) : isBelowZero u = false := by
  cases u with
  | notANumber | zero s => rfl
  | infinity s | finite s m e hm =>
    obtain rfl : s = .positive := h
    rfl

/-- A float whose sign bit is clear has no minus sign. -/
theorem unsigned_unpack {spec : Format} {b : BitVec spec.numBits} (h : unpackSign b = 0#1) :
    Unsigned (UnpackedFloat.unpack spec b) := by
  have hsign : Sign.ofBitVec (unpackSign b) = .positive := by rw [h]; rfl
  unfold UnpackedFloat.unpack
  dsimp only
  generalize Sign.ofBitVec (unpackSign b) = s at hsign ⊢
  subst hsign
  by_cases hlast : unpackExponent b = -1#_
  · rw [if_pos hlast]
    by_cases hzero : unpackMantissa b = 0#_
    · rw [if_pos hzero]; rfl
    · rw [if_neg hzero]; trivial
  · rw [if_neg hlast]
    by_cases hfirst : unpackExponent b = 0#_
    · rw [if_pos hfirst]
      by_cases hzero : unpackMantissa b = 0#_
      · rw [dif_pos hzero]; rfl
      · rw [dif_neg hzero]; rfl
    · rw [if_neg hfirst]; rfl

/-- A float whose sign bit is clear is not below zero. -/
theorem isBelowZero_unpack {spec : Format} {b : BitVec spec.numBits} (h : unpackSign b = 0#1) :
    isBelowZero (UnpackedFloat.unpack spec b) = false :=
  (unsigned_unpack h).isBelowZero

/-- The negation of a float below zero is not below zero. -/
theorem isBelowZero_pack_neg {u : UnpackedFloat} (h : isBelowZero u = true) :
    isBelowZero (Float.Model.pack u.neg).unpack = false := by
  apply isBelowZero_unpack
  cases u with
  | notANumber => cases h
  | zero s => cases h
  | infinity s =>
    cases s with
    | positive => cases h
    | negative => exact signBit_packComponents _ .positive _ _
  | finite s m e hm =>
    cases s with
    | positive => cases h
    | negative => exact signBit_pack _ m e hm

instance : LawfulSign Float where
  same_self x := by
    rcases compare_self_eq x.toModel.unpack with h | h
    · have hx : (x == x) = true := by
        show (x.toModel.unpack.compare x.toModel.unpack == some .eq) = true
        rw [h]; rfl
      show (x == x || (x.isNaN && x.isNaN)) = true
      rw [hx, Bool.true_or]
    · have hx : x.isNaN = true := by
        show x.toModel.unpack.isNaN = true
        rw [h]; rfl
      show (x == x || (x.isNaN && x.isNaN)) = true
      rw [hx, Bool.and_self, Bool.or_true]
  isNegative_of_same {x y} h := by
    rw [isNegative_eq, isNegative_eq]
    rcases Bool.or_eq_true_iff.mp h with h | h
    · have hc : (x.toModel.unpack.compare y.toModel.unpack == some .eq) = true := h
      exact isBelowZero_of_compare (by simpa using hc)
    · obtain ⟨hx, hy⟩ := Bool.and_eq_true_iff.mp h
      have hx : x.toModel.unpack.isNaN = true := hx
      have hy : y.toModel.unpack.isNaN = true := hy
      cases hu : x.toModel.unpack <;> rw [hu] at hx <;> cases hx
      cases hv : y.toModel.unpack <;> rw [hv] at hy <;> first | rfl | cases hy
  isNegative_neg {x} h := by
    rw [isNegative_eq] at h ⊢
    exact isBelowZero_pack_neg h

instance : LawfulOne Float where
  eqv_one_of_same {x} h := by
    have hone : (Scalar.natural 1 : Float).isNaN = false := rfl
    rcases Bool.or_eq_true_iff.mp h with h | h
    · have hc : ((Scalar.natural 1 : Float).toModel.unpack.compare x.toModel.unpack ==
        some .eq) = true := h
      show (x.toModel.unpack.compare (Scalar.natural 1 : Float).toModel.unpack ==
        some .eq) = true
      rw [compare_symm (by simpa using hc)]
      rfl
    · have hnan := (Bool.and_eq_true_iff.mp h).1
      rw [hone] at hnan
      cases hnan
  eqv_one_zero := rfl
  isNegative_one := rfl

end SymbolicAlgebra.Binary64
