import Mathlib.Algebra.Order.Field.Power
import Mathlib.Tactic.FieldSimp
import Mathlib.Tactic.Linarith
import Mathlib.Tactic.Positivity
import SymbolicAlgebra.Proofs.Binary64.Datum
import SymbolicAlgebra.Proofs.Token.Scan

/-!
# Numbers that are written as literals

The text of a plain double is a literal: digits, and a point with more digits if
there is a fraction. An integer has all its digits. Any other plain double has
its leading digit between the places `-4` and `15`, and so has the shortest
decimal that reads back as it, so it is written with a point and no exponent.

Results:
* `shortest_value_ge`, `shortest_value_le`: the shortest decimal is not far from
  the double.
* `isLiteral_text`: the text of a plain double is a literal.
* `text_neg`: the text of its negation has a minus sign in front.
-/
namespace SymbolicAlgebra

open Token (IsLiteral)

namespace Decimal

/-- The number that a decimal is. -/
def value (d : Decimal) : ℚ := d.digits * 10 ^ d.exponent

theorem value_trim (fuel : Nat) (d : Decimal) : (trim fuel d).value = d.value := by
  induction fuel generalizing d with
  | zero => rfl
  | succ fuel ih =>
    unfold trim
    split
    · next h =>
      have hdigits : (d.digits : ℚ) = (d.digits / 10 : Nat) * 10 := by
        exact_mod_cast (Nat.div_mul_cancel (Nat.dvd_of_mod_eq_zero h.2)).symm
      rw [ih, value, value, hdigits, zpow_add_one₀ (by norm_num)]
      ring
    · rfl

theorem width_pos (n : Nat) : 0 < width n := Nat.length_toDigits_pos

theorem lt_pow_width (n : Nat) : n < 10 ^ width n :=
  (Nat.length_toDigits_le_iff (by decide) (width_pos n)).mp (Nat.le_refl _)

theorem pow_le_of_lt_width {n k : Nat} (hn : n ≠ 0) (h : k < width n) : 10 ^ k ≤ n := by
  cases k with
  | zero => exact Nat.one_le_iff_ne_zero.mpr hn
  | succ k =>
    refine Nat.le_of_not_lt fun hlt => ?_
    exact absurd ((Nat.length_toDigits_le_iff (by decide) (Nat.succ_pos k)).mpr hlt)
      (Nat.not_le_of_lt h)

theorem lt_width_of_pow_le {n k : Nat} (h : 10 ^ k ≤ n) : n ≠ 0 ∧ k < width n := by
  have hpos : 0 < 10 ^ k := Nat.pow_pos (by decide)
  exact ⟨by omega, (Nat.pow_lt_pow_iff_right (by decide)).mp (h.trans_lt (lt_pow_width n))⟩

/-- The place of the point is bounded by powers of ten that the number lies between. -/
theorem point_bounds {d : Decimal} {a b : Int} (hlow : (10 : ℚ) ^ a ≤ d.value)
    (hhigh : d.value < (10 : ℚ) ^ b) :
    a < (width d.digits : Int) + d.exponent ∧ (width d.digits : Int) + d.exponent ≤ b := by
  have hten : (1 : ℚ) < 10 := by norm_num
  have hexp : (0 : ℚ) < 10 ^ d.exponent := by positivity
  have hpos : 0 < d.value := lt_of_lt_of_le (by positivity) hlow
  have hne : d.digits ≠ 0 := by
    intro h0
    simp [value, h0] at hpos
  constructor
  · refine (zpow_lt_zpow_iff_right₀ hten).mp (hlow.trans_lt ?_)
    rw [zpow_add₀ (by norm_num), zpow_natCast]
    exact mul_lt_mul_of_pos_right (by exact_mod_cast lt_pow_width d.digits) hexp
  · have hwidth := width_pos d.digits
    have hle : (10 : ℚ) ^ ((width d.digits - 1 : Nat) + d.exponent) ≤ d.value := by
      rw [zpow_add₀ (by norm_num), zpow_natCast]
      refine mul_le_mul_of_nonneg_right ?_ hexp.le
      exact_mod_cast pow_le_of_lt_width hne (Nat.sub_lt hwidth Nat.one_pos)
    have hlt := (zpow_lt_zpow_iff_right₀ hten).mp (hle.trans_lt hhigh)
    omega

/-! ## The shortest decimal -/

theorem onGrid?_eq_some {i : Interval} {step n : Nat} (h : i.onGrid? step = some n) :
    n = i.value / step ∨ n = i.value / step + 1 := by
  unfold Interval.onGrid? at h
  dsimp only at h
  repeat' split at h
  all_goals first | cases h; done | (cases h; simp)

theorem pow_eq (a n : Nat) : Nat.pow a n = a ^ n := rfl

theorem one_eq : Binary64.one = 2 ^ 1074 := by decide +kernel

theorem one_pos : 0 < Binary64.one := by decide +kernel

/-- The shortest decimal is a neighbour of the double on a grid no coarser than its leading digit,
or the double itself. -/
theorem shortest_cases (units : Nat) :
    (∃ fine n, fine ≤ lead units + 16 ∧
        (n = units * 10 ^ 340 / (10 ^ fine * Binary64.one) ∨
          n = units * 10 ^ 340 / (10 ^ fine * Binary64.one) + 1) ∧
        shortest units = ⟨n, (fine : Int) - 340⟩) ∨
      shortest units = ⟨units * Nat.pow 5 1074, -1074⟩ := by
  unfold shortest
  dsimp only
  generalize hfound : List.findSome? _ (List.range 17) = found
  cases found with
  | none => exact .inr rfl
  | some d =>
    obtain ⟨fewer, -, hfewer⟩ := List.exists_of_findSome?_eq_some hfound
    obtain ⟨n, hn, rfl⟩ := Option.map_eq_some_iff.mp hfewer
    refine .inl ⟨lead units + 16 - fewer, n, Nat.sub_le _ _, ?_, rfl⟩
    have hfour : Nat.pow 2 1076 = 4 * Binary64.one := by decide +kernel
    have hstep : (Interval.ofUnits units).value /
        (Nat.pow 10 (lead units + 16 - fewer) * Nat.pow 2 1076) =
          units * 10 ^ 340 / (10 ^ (lead units + 16 - fewer) * Binary64.one) := by
      have hvalue : (Interval.ofUnits units).value = 4 * (units * 10 ^ 340) := by
        simp only [Interval.ofUnits, pow_eq, Nat.mul_assoc, -Nat.reducePow]
      rw [hvalue, hfour, pow_eq, Nat.mul_left_comm _ 4, Nat.mul_div_mul_left _ _ (by decide)]
    rw [← hstep]
    exact onGrid?_eq_some hn

theorem mul_pow_mul_pow (units : Nat) {a b c : Nat} (hc : a + b = c) :
    units * 10 ^ a * 10 ^ b = units * 10 ^ c := by
  rw [← hc, Nat.pow_add, Nat.mul_assoc]

theorem scale_le {units one a b c : Nat} (h : one ≤ units * 10 ^ b) (hc : b + a = c) :
    10 ^ a * one ≤ units * 10 ^ c := by
  rw [← mul_pow_mul_pow units hc, Nat.mul_comm]
  exact Nat.mul_le_mul_right _ h

/-- The place of the leading digit of a double that is at least `0.0001`. -/
theorem pow_lead_le {units : Nat} (h : Binary64.one ≤ units * 10 ^ 4) :
    320 ≤ lead units ∧ 10 ^ (lead units + 16) * Binary64.one ≤ units * 10 ^ 340 := by
  have hlead : lead units = width (units * 10 ^ 324 / Binary64.one) - 1 := by
    simp only [lead, pow_eq, -Nat.reducePow]
  have hle : 10 ^ 320 ≤ units * 10 ^ 324 / Binary64.one :=
    (Nat.le_div_iff_mul_le one_pos).mpr (scale_le h (by decide))
  have hscaled := Nat.div_mul_le_self (units * 10 ^ 324) Binary64.one
  generalize units * 10 ^ 324 / Binary64.one = whole at *
  obtain ⟨hwhole, hwidth⟩ := lt_width_of_pow_le hle
  refine ⟨by omega, ?_⟩
  calc 10 ^ (lead units + 16) * Binary64.one
      = 10 ^ lead units * Binary64.one * 10 ^ 16 := by rw [Nat.pow_add, Nat.mul_right_comm]
    _ ≤ whole * Binary64.one * 10 ^ 16 :=
        Nat.mul_le_mul_right _ (Nat.mul_le_mul_right _ (pow_le_of_lt_width hwhole (by omega)))
    _ ≤ units * 10 ^ 324 * 10 ^ 16 := Nat.mul_le_mul_right _ hscaled
    _ = units * 10 ^ 340 := mul_pow_mul_pow units (by decide)

/-- A neighbour on a grid no coarser than the leading digit is no less than the power of ten of that
digit and at most twice the double. -/
theorem neighbour_bounds {units one fine place n : Nat} (hone : 0 < one) (hfine : fine ≤ place)
    (hplace : 10 ^ place * one ≤ units)
    (hn : n = units / (10 ^ fine * one) ∨ n = units / (10 ^ fine * one) + 1) :
    10 ^ place ≤ n * 10 ^ fine ∧ n * 10 ^ fine * one ≤ 2 * units := by
  have hten : 0 < 10 ^ fine := Nat.pow_pos (by decide)
  have hlow := Nat.div_mul_le_self units (10 ^ fine * one)
  -- the double is at least one step of the coarsest grid, and that is a multiple of this one's
  have hcoarse : 10 ^ (place - fine) ≤ units / (10 ^ fine * one) := by
    refine (Nat.le_div_iff_mul_le (Nat.mul_pos hten hone)).mpr ?_
    rwa [← Nat.mul_assoc, ← Nat.pow_add, Nat.sub_add_cancel hfine]
  have hpos : 0 < 10 ^ (place - fine) := Nat.pow_pos (by decide)
  generalize units / (10 ^ fine * one) = low at *
  have hnlow : low ≤ n := by omega
  have hnhigh : n ≤ 2 * low := by omega
  constructor
  · calc 10 ^ place = 10 ^ (place - fine) * 10 ^ fine := by
          rw [← Nat.pow_add, Nat.sub_add_cancel hfine]
      _ ≤ n * 10 ^ fine := Nat.mul_le_mul_right _ (hcoarse.trans hnlow)
  · calc n * 10 ^ fine * one = n * (10 ^ fine * one) := Nat.mul_assoc _ _ _
      _ ≤ 2 * low * (10 ^ fine * one) := Nat.mul_le_mul_right _ hnhigh
      _ = 2 * (low * (10 ^ fine * one)) := Nat.mul_assoc _ _ _
      _ ≤ 2 * units := Nat.mul_le_mul_left _ hlow

theorem cast_two_pow {n k : Nat} (h : n = 2 ^ k) : (n : ℚ) = 2 ^ k := by
  rw [h, Nat.cast_pow, Nat.cast_ofNat]

/-- The exact value of a double as a decimal. -/
theorem value_exact (units : Nat) :
    (⟨units * Nat.pow 5 1074, -1074⟩ : Decimal).value = units / Binary64.one := by
  have hten : (10 : ℚ) ^ 1074 = 2 ^ 1074 * 5 ^ 1074 := by
    rw [← mul_pow]
    norm_num
  have hone : (Binary64.one : ℚ) = 2 ^ 1074 := cast_two_pow one_eq
  have htwo : (2 : ℚ) ^ 1074 ≠ 0 := pow_ne_zero _ (by norm_num)
  have hfive : (5 : ℚ) ^ 1074 ≠ 0 := pow_ne_zero _ (by norm_num)
  simp only [value, Nat.pow_eq, Nat.cast_mul, Nat.cast_pow, Nat.cast_ofNat]
  rw [zpow_neg, zpow_ofNat, hten, hone]
  field_simp

/-- The shortest decimal of a double that is at least `0.0001` is not less than that. -/
theorem shortest_value_ge {units : Nat} (h : Binary64.one ≤ units * 10 ^ 4) :
    (10 : ℚ) ^ (-4 : Int) ≤ (shortest units).value := by
  rcases shortest_cases units with ⟨fine, n, hfine, hn, hshortest⟩ | hshortest
  · obtain ⟨hlead, hplace⟩ := pow_lead_le h
    obtain ⟨hlow, -⟩ := neighbour_bounds one_pos hfine hplace hn
    have hpow : (10 : ℚ) ^ 336 ≤ n * 10 ^ fine := by
      exact_mod_cast (Nat.pow_le_pow_right (by decide) (by omega)).trans hlow
    have hsplit : (10 : ℚ) ^ 336 = 10 ^ (-4 : Int) * 10 ^ 340 := by
      rw [← zpow_natCast, ← zpow_natCast, ← zpow_add₀ (by norm_num)]
      rfl
    rw [hshortest, value, zpow_sub₀ (by norm_num), zpow_natCast, zpow_ofNat, ← mul_div_assoc,
      le_div_iff₀ (by positivity), ← hsplit]
    exact hpow
  · have hone : (0 : ℚ) < Binary64.one := by exact_mod_cast one_pos
    have hcast : (Binary64.one : ℚ) ≤ units * 10 ^ 4 := by exact_mod_cast h
    rw [hshortest, value_exact, le_div_iff₀ hone, zpow_neg, zpow_ofNat,
      inv_mul_le_iff₀ (by positivity), mul_comm]
    exact hcast

/-- The shortest decimal is at most twice the double. -/
theorem shortest_value_le {units : Nat} (h : Binary64.one ≤ units * 10 ^ 4) :
    (shortest units).value ≤ 2 * (units / Binary64.one) := by
  have hone : (0 : ℚ) < Binary64.one := by exact_mod_cast one_pos
  rcases shortest_cases units with ⟨fine, n, hfine, hn, hshortest⟩ | hshortest
  · obtain ⟨-, hplace⟩ := pow_lead_le h
    obtain ⟨-, hhigh⟩ := neighbour_bounds one_pos hfine hplace hn
    have hcast : (n : ℚ) * 10 ^ fine * Binary64.one ≤ 2 * (units * 10 ^ 340) := by
      exact_mod_cast hhigh
    rw [hshortest, value, zpow_sub₀ (by norm_num), zpow_natCast, zpow_ofNat, ← mul_div_assoc,
      ← mul_div_assoc, div_le_div_iff₀ (by positivity) hone, mul_assoc 2]
    exact hcast
  · rw [hshortest, value_exact]
    have hpos : 0 ≤ (units : ℚ) / Binary64.one := div_nonneg (Nat.cast_nonneg _) hone.le
    linarith

/-! ## What is written -/

/-- A number with digits on both sides of a point. -/
theorem isLiteral_point {whole fraction : List Char} (hwhole : ∀ c ∈ whole, c.isDigit = true)
    (hfraction : ∀ c ∈ fraction, c.isDigit = true) (hne : whole ≠ []) (hne' : fraction ≠ []) :
    IsLiteral (whole ++ '.' :: fraction) := by
  obtain ⟨d, ds, rfl⟩ := List.exists_cons_of_ne_nil hne
  obtain ⟨f, fs, rfl⟩ := List.exists_cons_of_ne_nil hne'
  rw [List.forall_mem_cons] at hwhole hfraction
  exact .fraction hwhole.1 hwhole.2 hfraction.1 hfraction.2

theorem isLiteral_digits {ds : List Char} (h : ∀ c ∈ ds, c.isDigit = true) (hne : ds ≠ []) :
    IsLiteral ds := by
  obtain ⟨d, ds, rfl⟩ := List.exists_cons_of_ne_nil hne
  rw [List.forall_mem_cons] at h
  exact .integer h.1 h.2

theorem isDigit_of_mem_replicate {c : Char} {k : Nat} (h : c ∈ List.replicate k '0') :
    c.isDigit = true := by
  rw [List.eq_of_mem_replicate h]
  rfl

/-- A number that is written positionally is a literal. -/
theorem isLiteral_positional {digits : List Char} (h : ∀ c ∈ digits, c.isDigit = true)
    (hne : digits ≠ []) (point : Int) :
    IsLiteral (positional Layout.answer digits point) := by
  unfold positional
  split
  · have hzeros : ∀ c ∈ List.replicate (-point).toNat '0' ++ digits, c.isDigit = true :=
      List.forall_mem_append.mpr ⟨fun c hc => isDigit_of_mem_replicate hc, h⟩
    have hzero : ∀ c ∈ ['0'], c.isDigit = true := List.forall_mem_singleton.mpr rfl
    exact isLiteral_point hzero hzeros (by decide) (by simp [hne])
  split
  · have hzeros : ∀ c ∈ digits ++ List.replicate (point.toNat - digits.length) '0',
        c.isDigit = true :=
      List.forall_mem_append.mpr ⟨h, fun c hc => isDigit_of_mem_replicate hc⟩
    exact isLiteral_point hzeros (List.forall_mem_singleton.mpr rfl) (by simp [hne]) (by decide)
  · have hlen := List.length_pos_iff.mpr hne
    refine isLiteral_point (fun c hc => h c (List.mem_of_mem_take hc))
      (fun c hc => h c (List.mem_of_mem_drop hc)) ?_ ?_
    · simp only [ne_eq, List.take_eq_nil_iff, hne, or_false]
      omega
    · simp only [ne_eq, List.drop_eq_nil_iff]
      omega

/-- A decimal that lies between `0.0001` and `10 ^ 16` is written as a literal. -/
theorem isLiteral_write {d : Decimal} (hlow : (10 : ℚ) ^ (-4 : Int) ≤ d.value)
    (hhigh : d.value < (10 : ℚ) ^ (16 : Int)) : IsLiteral (write Layout.answer d) := by
  have htrim := value_trim (width d.digits) d
  obtain ⟨hleast, hmost⟩ := point_bounds (htrim ▸ hlow) (htrim ▸ hhigh)
  unfold write
  dsimp only
  rw [if_pos ⟨hleast, hmost⟩]
  refine isLiteral_positional (fun c hc => Nat.isDigit_of_mem_toDigits (by decide) ?_ hc) ?_ _
  · decide
  · exact List.ne_nil_of_length_pos (width_pos _)

end Decimal

namespace Binary64

/-- A double that is finite, not negative, and an integer or at least `0.0001`. -/
structure Plain (x : Float) : Prop where
  finite : x.isFinite = true
  nonneg : 0.0 ≤ x
  written : isWhole x = true ∨ 0.0001 ≤ x

/-- Only small doubles have a fraction. -/
theorem units_lt_of_not_whole {x : Float} {negative : Bool} {units : Nat}
    (h : Datum.ofFloat x = .finite negative units) (hwhole : units % one ≠ 0) :
    2 * units < 2 ^ 53 * one := by
  obtain ⟨bits, hbits, hone⟩ : ∃ bits, bits = 1074 ∧ one = 2 ^ bits := ⟨_, rfl, Decimal.one_eq⟩
  rw [ofFloat_eq] at h
  rw [hone] at hwhole ⊢
  cases hx : x.toModel.unpack with
  | notANumber | infinity s =>
    rw [hx] at h
    cases h
  | zero s =>
    rw [hx] at h
    cases h
    exact absurd (Nat.zero_mod _) hwhole
  | finite s m e hm =>
    rw [hx] at h
    cases h
    have hlt := (aligned_of_unpack hx).mantissa_lt
    have hshift : (e + 1074).toNat + 1 ≤ bits := by
      refine Nat.lt_of_not_le fun hle => hwhole ?_
      obtain ⟨k, hk⟩ := Nat.exists_eq_add_of_le hle
      rw [hk, Nat.pow_add, Nat.mul_left_comm]
      exact Nat.mul_mod_right _ _
    calc 2 * (m * 2 ^ (e + 1074).toNat) = m * 2 ^ ((e + 1074).toNat + 1) := by
          rw [Nat.pow_succ, Nat.mul_comm 2, Nat.mul_assoc]
      _ < 2 ^ 53 * 2 ^ bits := Nat.mul_lt_mul_of_lt_of_le hlt
          (Nat.pow_le_pow_right (by decide) hshift) (Nat.two_pow_pos _)

/-- The text of a plain double with a fraction. -/
theorem isLiteral_write {units : Nat} (hlow : one ≤ units * 10 ^ 4)
    (hhigh : 2 * units < 2 ^ 53 * one) :
    IsLiteral (Decimal.write Layout.answer (Decimal.shortest units)) := by
  have hone : (0 : ℚ) < one := by exact_mod_cast Decimal.one_pos
  have hcast : (2 * units : ℚ) < 2 ^ 53 * one := by exact_mod_cast hhigh
  refine Decimal.isLiteral_write (Decimal.shortest_value_ge hlow)
    ((Decimal.shortest_value_le hlow).trans_lt ?_)
  calc 2 * ((units : ℚ) / one) = 2 * units / one := (mul_div_assoc _ _ _).symm
    _ < 2 ^ 53 := (div_lt_iff₀ hone).mpr hcast
    _ < 10 ^ (16 : Int) := by norm_num

theorem isLiteral_toString (n : Nat) : IsLiteral (toString n).toList := by
  have hdigits : (toString n).toList = Nat.toDigits 10 n := by
    rw [Nat.toString_eq_repr, Nat.toList_repr]
  rw [hdigits]
  exact Decimal.isLiteral_digits
    (fun c hc => Nat.isDigit_of_mem_toDigits (by decide) (by decide) hc)
    (List.ne_nil_of_length_pos Nat.length_toDigits_pos)

/-- The text of a plain double is a literal. -/
theorem isLiteral_text {x : Float} (h : Plain x) : IsLiteral (text x).toList := by
  obtain ⟨negative, units, hx, hsign⟩ := ofFloat_of_nonneg h.finite h.nonneg
  unfold text
  rw [hx]
  dsimp only
  by_cases hwhole : units % one = 0
  · rw [if_pos hwhole]
    by_cases hzero : units = 0
    · rw [if_pos hzero]
      exact .integer (by decide) (List.forall_mem_nil _)
    · obtain rfl : negative = false := by
        cases negative with
        | false => rfl
        | true => exact absurd (hsign rfl) hzero
      rw [if_neg hzero]
      exact isLiteral_toString _
  · rw [if_neg hwhole]
    have hmin : 0.0001 ≤ x := by
      refine h.written.resolve_left fun hx' => hwhole ?_
      simp only [isWhole, hx, beq_iff_eq] at hx'
      exact hx'
    obtain ⟨units', hx', hlow⟩ := ofFloat_of_le h.finite hmin
    rw [hx] at hx'
    cases hx'
    have hne : units ≠ 0 := by
      rintro rfl
      exact hwhole (Nat.zero_mod _)
    unfold answer write
    rw [hx]
    simp only [if_neg hne, String.toList_ofList]
    exact isLiteral_write hlow (units_lt_of_not_whole hx hwhole)

/-- The text of a number below zero is that of its negation behind a minus sign. -/
theorem text_neg {x : Float} (h : ¬ 0.0 ≤ x) (hx : (-x).isFinite = true) :
    text x = "-" ++ text (-x) := by
  obtain ⟨units, hne, hdatum, hneg⟩ := ofFloat_of_not_nonneg h hx
  unfold text
  rw [hdatum, hneg]
  dsimp only
  by_cases hwhole : units % one = 0
  · rw [if_pos hwhole, if_pos hwhole, if_neg hne, if_neg hne]
    rfl
  · rw [if_neg hwhole, if_neg hwhole]
    unfold answer write
    rw [hdatum, hneg]
    exact String.toList_inj.mp (by simp)

end Binary64
end SymbolicAlgebra
