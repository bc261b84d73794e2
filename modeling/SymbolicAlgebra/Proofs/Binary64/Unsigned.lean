import SymbolicAlgebra.Proofs.Binary64.Datum
import SymbolicAlgebra.Token.Basic

/-!
# Literals are not negative

A literal has no sign, and neither has the double that it is read as: rounding
keeps signs, and a product or a quotient of numbers without one has none.

Results:
* `unsigned_mul`, `unsigned_div`, `unsigned_pack`: operations that bring in no sign.
* `unsigned_literalValue`: the double of a literal has no sign.
-/
namespace SymbolicAlgebra.Binary64

open Float.Model Float.Model.UnpackedFloat

/-- A mantissa and an exponent without a sign, or zero where there is no mantissa. -/
theorem unsigned_dite (m : Nat) (e : Int) :
    Unsigned (if h : m = 0 then .zero .positive
      else .finite .positive m e (Nat.pos_of_ne_zero h)) := by
  by_cases h : m = 0
  · rw [dif_pos h]; rfl
  · rw [dif_neg h]; rfl

theorem unsigned_round (spec : Format) (m : Nat) (e : Int) (accuracy : Accuracy) :
    Unsigned (roundWithAccuracy spec .positive m e accuracy) :=
  unsigned_dite _ _

theorem unsigned_mul (spec : Format) {u v : UnpackedFloat} (hu : Unsigned u) (hv : Unsigned v) :
    Unsigned (mul spec u v) := by
  cases u <;> cases v
  all_goals try obtain rfl := hu
  all_goals try obtain rfl := hv
  all_goals first | rfl | trivial | exact unsigned_round spec _ _ _

theorem unsigned_div (spec : Format) {u v : UnpackedFloat} (hu : Unsigned u) (hv : Unsigned v) :
    Unsigned (div spec u v) := by
  cases u <;> cases v
  all_goals try obtain rfl := hu
  all_goals try obtain rfl := hv
  all_goals first | rfl | trivial | exact unsigned_round spec _ _ _

theorem unsigned_pack {u : UnpackedFloat} (h : Unsigned u) :
    Unsigned (Float.Model.pack u).unpack := by
  refine @unsigned_unpack Format.binary64 _ ?_
  cases u with
  | notANumber => exact signBit_packComponents _ .positive _ _
  | zero s | infinity s =>
    obtain rfl : s = .positive := h
    exact signBit_packComponents _ .positive _ _
  | finite s m e hm =>
    obtain rfl : s = .positive := h
    exact signBit_pack _ m e hm

theorem unsigned_ofUInt64 (n : UInt64) : Unsigned n.toFloat.toModel.unpack := by
  refine unsigned_pack (u := UnpackedFloat.ofNat Format.binary64 n.toNat) ?_
  unfold UnpackedFloat.ofNat UnpackedFloat.ofInt UnpackedFloat.normalize
  split
  · next hlt => exact absurd (Int.compare_eq_lt.mp hlt) (Int.not_lt.mpr (Int.natCast_nonneg _))
  · rfl
  · exact unsigned_round _ _ _ _

theorem unsigned_ofScientific (m : Nat) (e : Int) :
    Unsigned (UnpackedFloat.ofScientific Format.binary64 m e) := by
  unfold UnpackedFloat.ofScientific
  by_cases hm : m = 0
  · rw [dif_pos hm]; rfl
  rw [dif_neg hm]
  -- beyond every double, below every double, and in between
  refine iteInduction (motive := Unsigned) (fun _ => rfl) fun _ => ?_
  refine iteInduction (motive := Unsigned) (fun _ => rfl) fun _ => ?_
  refine iteInduction (motive := Unsigned) (fun _ => ?_) fun _ => ?_
  · exact unsigned_mul _ rfl rfl
  · exact unsigned_div _ rfl rfl

theorem unsigned_powerOfTen {e : Nat} (h : e < Float.exactlyRepresentablePowersOfTen.size) :
    Unsigned (Float.exactlyRepresentablePowersOfTen[e]).toModel.unpack := by
  have hall : Float.exactlyRepresentablePowersOfTen.all
      (fun x => @unpackSign Format.binary64 x.toModel.toBits.toBitVec == 0#1) = true := by
    decide +kernel
  have hsign := Array.all_eq_true.mp hall e h
  exact @unsigned_unpack Format.binary64 _ (by simpa using hsign)

theorem unsigned_decimal (digits places : Nat) :
    Unsigned (Float.ofScientific digits true places).toModel.unpack := by
  unfold Float.ofScientific
  dsimp only
  split
  · exact unsigned_pack (unsigned_div _ (unsigned_ofUInt64 _) (unsigned_powerOfTen _))
  · exact unsigned_pack (unsigned_ofScientific _ _)

/-- The double that a literal is read as has no sign. -/
theorem unsigned_literalValue (lexeme : String) :
    Unsigned (literalValue lexeme : Float).toModel.unpack :=
  unsigned_decimal _ _

end SymbolicAlgebra.Binary64
