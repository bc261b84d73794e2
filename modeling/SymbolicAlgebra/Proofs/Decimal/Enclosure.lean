import SymbolicAlgebra.Proofs.Decimal.Literal

/-!
# The shortest decimal determines the double

The intervals of reals that round to two doubles do not meet: where two
neighbours share an end, their significands are consecutive, so at most one of
the two intervals has its ends. The shortest decimal lies in the interval of its
double, so different doubles have different shortest decimals.

Results:
* `exists_aligned`: the magnitude of a double as a significand and a place.
* `encloses_shortest`: the shortest decimal lies in the interval.
* `units_eq_of_encloses`: no number lies in the intervals of two magnitudes.
-/
namespace SymbolicAlgebra

open Binary64

/-! ## Magnitudes -/

namespace Binary64

/-- The magnitude of a double is a significand that stands at its last bit. -/
theorem exists_aligned {x : Float} {negative : Bool} {units : Nat}
    (h : Datum.ofFloat x = .finite negative units) :
    ∃ m k : Nat, Aligned m (k - 1074) ∧ units = m * 2 ^ k := by
  rw [ofFloat_eq] at h
  cases hx : x.toModel.unpack with
  | notANumber | infinity s =>
    rw [hx] at h
    cases h
  | zero s =>
    rw [hx] at h
    cases h
    exact ⟨0, 0, ⟨by decide, by decide, .inr rfl⟩, rfl⟩
  | finite s m e hm =>
    rw [hx] at h
    cases h
    have haligned := aligned_of_unpack hx
    refine ⟨m, (e + 1074).toNat, ?_, rfl⟩
    have hexp : ((e + 1074).toNat : Int) - 1074 = e := by
      have := haligned.exponent_ge
      omega
    rwa [hexp]

theorem lastBit_of_aligned {m k : Nat} (h : Aligned m (k - 1074)) : lastBit (m * 2 ^ k) = k := by
  unfold lastBit
  have hlt := h.mantissa_lt
  by_cases hfull : 2 ^ 52 ≤ m
  · have hlog : (m * 2 ^ k).log2 = 52 + k := by
      refine (Nat.log2_eq_iff (Nat.mul_pos (by omega) (Nat.two_pow_pos k)).ne').mpr ⟨?_, ?_⟩
      · rw [Nat.pow_add]
        exact Nat.mul_le_mul_right _ hfull
      · rw [Nat.add_right_comm, Nat.pow_add]
        exact Nat.mul_lt_mul_of_pos_right hlt (Nat.two_pow_pos k)
    omega
  · obtain rfl : k = 0 := by
      have := h.full_or_least
      omega
    rw [Nat.pow_zero, Nat.mul_one]
    by_cases hm : m = 0
    · rw [hm]
      rfl
    · have := (Nat.log2_lt hm).mpr (Nat.lt_of_not_le hfull)
      omega

end Binary64

namespace Decimal

/-! ## Intervals -/

/-- Whether a number, in the units of the interval, lies in it. -/
def Interval.encloses (i : Interval) (x : ℚ) : Prop :=
  if i.closed then i.value ≤ x + i.below ∧ x ≤ i.value + i.above
  else i.value < x + i.below ∧ x < i.value + i.above

theorem Interval.encloses_of_contains {i : Interval} {x : Nat} (h : i.contains x = true) :
    i.encloses x := by
  unfold Interval.contains at h
  unfold Interval.encloses
  split at h
  · next hclosed =>
    rw [if_pos hclosed]
    simp only [Bool.and_eq_true, decide_eq_true_eq] at h
    exact_mod_cast h
  · next hclosed =>
    rw [if_neg hclosed]
    simp only [Bool.and_eq_true, decide_eq_true_eq] at h
    exact_mod_cast h

/-- A grid point that reads back lies in the interval. -/
theorem Interval.contains_of_onGrid? {i : Interval} {step n : Nat} (h : i.onGrid? step = some n) :
    i.contains (n * step) = true := by
  unfold Interval.onGrid? at h
  dsimp only at h
  repeat' split at h
  all_goals cases h
  all_goals assumption

/-- The first interval ends below the second one, or they share an end that one of them lacks. -/
def Interval.Below (i j : Interval) : Prop :=
  i.value + i.above + j.below ≤ j.value ∧
    (i.value + i.above + j.below = j.value → i.closed = true → j.closed = false)

theorem Interval.Below.not_encloses {i j : Interval} (h : i.Below j) {x : ℚ}
    (hi : i.encloses x) (hj : j.encloses x) : False := by
  obtain ⟨hle, hend⟩ := h
  have hcast : (i.value : ℚ) + i.above + j.below ≤ j.value := by exact_mod_cast hle
  unfold Interval.encloses at hi hj
  by_cases hclosed : i.closed = true ∧ j.closed = true
  · rw [if_pos hclosed.1] at hi
    rw [if_pos hclosed.2] at hj
    have heq : (i.value : ℚ) + i.above + j.below = j.value := by linarith
    have hopen := hend (by exact_mod_cast heq) hclosed.1
    rw [hclosed.2] at hopen
    cases hopen
  · split at hi <;> split at hj
    · exact hclosed ⟨‹_›, ‹_›⟩
    all_goals linarith

/-- What one unit of the intervals is to the number one. -/
def unitsOfOne : Nat := Nat.pow 2 1076 * Nat.pow 10 340

/-- The interval of a significand at its place. -/
theorem Interval.ofUnits_aligned {m k : Nat} (h : Aligned m (k - 1074)) :
    Interval.ofUnits (m * 2 ^ k) =
      { value := 4 * (m * 2 ^ k) * Nat.pow 10 340
        below := (if m = 2 ^ 52 ∧ 0 < k then 1 else 2) * 2 ^ k * Nat.pow 10 340
        above := 2 * 2 ^ k * Nat.pow 10 340
        closed := m % 2 = 0 } := by
  have hdiv : m * 2 ^ k / 2 ^ k = m := Nat.mul_div_cancel _ (Nat.two_pow_pos k)
  have hone : 1 < 2 ^ k ↔ 0 < k := Nat.one_lt_two_pow_iff.trans Nat.pos_iff_ne_zero.symm
  simp only [Interval.ofUnits, lastBit_of_aligned h, pow_eq, hdiv, hone, -Nat.reducePow]

/-- A lesser magnitude has no greater place. -/
theorem place_le_of_lt {m n k l : Nat} (hm : Aligned m (k - 1074)) (hn : Aligned n (l - 1074))
    (h : m * 2 ^ k < n * 2 ^ l) : k ≤ l := by
  refine Nat.le_of_not_lt fun hlt => Nat.lt_asymm h ?_
  have hfull : 2 ^ 52 ≤ m := hm.full_or_least.resolve_right (by omega)
  calc n * 2 ^ l < 2 ^ 53 * 2 ^ l :=
        Nat.mul_lt_mul_of_pos_right hn.mantissa_lt (Nat.two_pow_pos l)
    _ = 2 ^ 52 * 2 ^ (l + 1) := by ring
    _ ≤ m * 2 ^ k := Nat.mul_le_mul hfull (Nat.pow_le_pow_right (by decide) hlt)

/-- Half the spacing above one magnitude and half the spacing below a greater one fill at most the
room between them. Where they fill it, one of the significands is odd. -/
theorem spacing_le {m n d c : Nat} (hm : m < 2 ^ 53) (hn : 2 ^ 52 ≤ n ∨ d = 0) (hc : c ≤ 2)
    (hleast : d ≠ 0 → n = 2 ^ 52 → c = 1) (h : m < n * 2 ^ d) :
    4 * m + 2 + c * 2 ^ d ≤ 4 * (n * 2 ^ d) ∧
      (4 * m + 2 + c * 2 ^ d = 4 * (n * 2 ^ d) → m % 2 = 0 → n % 2 ≠ 0) := by
  cases d with
  | zero =>
    simp only [Nat.pow_zero, Nat.mul_one] at *
    omega
  | succ d =>
    have hfull : 2 ^ 52 ≤ n := hn.resolve_right (Nat.succ_ne_zero d)
    have htwo : 2 ≤ 2 ^ (d + 1) := Nat.le_self_pow (Nat.succ_ne_zero d) 2
    generalize 2 ^ (d + 1) = spacing at *
    by_cases hn : n = 2 ^ 52
    · rw [hleast (Nat.succ_ne_zero d) hn, hn, Nat.one_mul]
      refine ⟨by omega, fun heq heven => ?_⟩
      -- the lesser magnitude is the greatest of its binade, so it is odd
      have hge := heq.ge
      clear heq
      have hlast : m = 2 ^ 53 - 1 := by omega
      rw [hlast] at heven
      cases heven
    · have hroom : (2 ^ 52 + 1) * spacing ≤ n * spacing := Nat.mul_le_mul_right spacing (by omega)
      have hbelow : c * spacing ≤ 2 * spacing := Nat.mul_le_mul_right spacing hc
      have hlt : 4 * m + 2 + c * spacing < 4 * (n * spacing) := by
        omega
      exact ⟨hlt.le, fun heq => absurd heq hlt.ne⟩

/-- The interval of a lesser magnitude stands below that of a greater one. -/
theorem Interval.below_of_lt {m n k l : Nat} (hm : Aligned m (k - 1074)) (hn : Aligned n (l - 1074))
    (h : m * 2 ^ k < n * 2 ^ l) :
    (Interval.ofUnits (m * 2 ^ k)).Below (Interval.ofUnits (n * 2 ^ l)) := by
  obtain ⟨d, rfl⟩ := Nat.exists_eq_add_of_le (place_le_of_lt hm hn h)
  rw [Interval.ofUnits_aligned hm, Interval.ofUnits_aligned hn]
  obtain ⟨c, hc⟩ : ∃ c, c = if n = 2 ^ 52 ∧ 0 < k + d then 1 else 2 := ⟨_, rfl⟩
  have hlt : m < n * 2 ^ d := by
    rw [Nat.add_comm, Nat.pow_add, ← Nat.mul_assoc] at h
    exact Nat.lt_of_mul_lt_mul_right h
  obtain ⟨hle, hodd⟩ := @spacing_le m n d c hm.mantissa_lt
    (hn.full_or_least.imp_right (by omega)) (by split at hc <;> omega)
    (by intro hd hn; rw [hc, if_pos ⟨hn, by omega⟩]) hlt
  have hpos : 0 < Nat.pow 10 340 := by decide +kernel
  unfold Interval.Below
  dsimp only
  rw [← hc]
  generalize Nat.pow 10 340 = scale at *
  -- both sides are the same multiple of what `spacing_le` compares
  have hleft : 4 * (m * 2 ^ k) * scale + 2 * 2 ^ k * scale + c * 2 ^ (k + d) * scale =
      (4 * m + 2 + c * 2 ^ d) * (2 ^ k * scale) := by
    rw [Nat.pow_add]
    ring
  have hright : 4 * (n * 2 ^ (k + d)) * scale = 4 * (n * 2 ^ d) * (2 ^ k * scale) := by
    rw [Nat.pow_add]
    ring
  have hscale : 0 < 2 ^ k * scale := Nat.mul_pos (Nat.two_pow_pos k) hpos
  rw [hleft, hright]
  refine ⟨Nat.mul_le_mul_right _ hle, fun heq hclosed => ?_⟩
  have hodd := hodd (Nat.eq_of_mul_eq_mul_right hscale heq) (of_decide_eq_true hclosed)
  exact decide_eq_false hodd

/-! ## The shortest decimal lies in the interval -/

/-- The value of a magnitude lies in its interval. -/
theorem Interval.encloses_value (units : Nat) :
    (Interval.ofUnits units).encloses (Interval.ofUnits units).value := by
  have hscale : 0 < Nat.pow 10 340 := by decide +kernel
  have hspacing : 0 < Nat.pow 2 (lastBit units) := Nat.two_pow_pos _
  have hbelow : 0 < (Interval.ofUnits units).below := by
    refine Nat.mul_pos (Nat.mul_pos ?_ hspacing) hscale
    split <;> decide
  have habove : 0 < (Interval.ofUnits units).above :=
    Nat.mul_pos (Nat.mul_pos (by decide) hspacing) hscale
  refine Interval.encloses_of_contains ?_
  unfold Interval.contains
  split <;> simp only [Bool.and_eq_true, decide_eq_true_eq] <;> omega

theorem four_ones : Nat.pow 2 1076 = 4 * Binary64.one := by decide +kernel

theorem cast_unitsOfOne : (unitsOfOne : ℚ) = 4 * Binary64.one * 10 ^ 340 := by
  rw [unitsOfOne, four_ones]
  simp only [pow_eq, Nat.cast_mul, Nat.cast_pow, Nat.cast_ofNat, -Nat.reducePow]

theorem unitsOfOne_pos : (0 : ℚ) < unitsOfOne := by
  have hone : (0 : ℚ) < Binary64.one := by exact_mod_cast one_pos
  rw [cast_unitsOfOne]
  positivity

/-- The value of the interval is the number that the double is. -/
theorem Interval.cast_value (units : Nat) :
    ((Interval.ofUnits units).value : ℚ) = units / Binary64.one * unitsOfOne := by
  have hone : (Binary64.one : ℚ) ≠ 0 := by exact_mod_cast one_pos.ne'
  rw [cast_unitsOfOne, ← mul_assoc, mul_left_comm, div_mul_cancel₀ _ hone]
  simp only [Interval.ofUnits, pow_eq, Nat.cast_mul, Nat.cast_pow, Nat.cast_ofNat, -Nat.reducePow]

/-- What reads back as a magnitude other than zero is at least half of it and at most its double. -/
theorem bounds_of_encloses {units : Nat} (hunits : units ≠ 0) {x : ℚ}
    (h : (Interval.ofUnits units).encloses (x * unitsOfOne)) :
    (units : ℚ) / Binary64.one ≤ 2 * x ∧ x ≤ 2 * ((units : ℚ) / Binary64.one) := by
  have hspacing : Nat.pow 2 (lastBit units) ≤ units :=
    (Nat.pow_le_pow_right (by decide) (Nat.sub_le _ _)).trans (Nat.log2_self_le hunits)
  have hscaled := Nat.mul_le_mul_right (Nat.pow 10 340) hspacing
  have hbelow : 2 * (Interval.ofUnits units).below ≤ (Interval.ofUnits units).value := by
    simp only [Interval.ofUnits, Nat.mul_assoc]
    generalize Nat.pow 2 (lastBit units) * Nat.pow 10 340 = spacing at *
    split <;> omega
  have habove : (Interval.ofUnits units).above ≤ (Interval.ofUnits units).value := by
    simp only [Interval.ofUnits, Nat.mul_assoc]
    generalize Nat.pow 2 (lastBit units) * Nat.pow 10 340 = spacing at *
    omega
  have hbelow : (2 * (Interval.ofUnits units).below : ℚ) ≤ (Interval.ofUnits units).value := by
    exact_mod_cast hbelow
  have habove : ((Interval.ofUnits units).above : ℚ) ≤ (Interval.ofUnits units).value := by
    exact_mod_cast habove
  rw [Interval.cast_value] at hbelow habove
  unfold Interval.encloses at h
  rw [Interval.cast_value] at h
  refine ⟨le_of_mul_le_mul_right ?_ unitsOfOne_pos, le_of_mul_le_mul_right ?_ unitsOfOne_pos⟩
  all_goals split at h <;> linarith

/-- The shortest decimal lies in the interval of its double. -/
theorem encloses_shortest (units : Nat) :
    (Interval.ofUnits units).encloses ((shortest units).value * unitsOfOne) := by
  unfold shortest
  dsimp only
  generalize hfound : List.findSome? _ (List.range 17) = found
  cases found with
  | none =>
    rw [Option.getD_none, value_exact, ← Interval.cast_value]
    exact Interval.encloses_value units
  | some d =>
    obtain ⟨fewer, -, hfewer⟩ := List.exists_of_findSome?_eq_some hfound
    obtain ⟨n, hn, rfl⟩ := Option.map_eq_some_iff.mp hfewer
    have hpoint := Interval.encloses_of_contains (Interval.contains_of_onGrid? hn)
    generalize lead units + 16 - fewer = fine at *
    have hvalue : (⟨n, (fine : Int) - 340⟩ : Decimal).value * unitsOfOne =
        (n * (Nat.pow 10 fine * Nat.pow 2 1076) : Nat) := by
      have hten : (10 : ℚ) ^ 340 ≠ 0 := pow_ne_zero _ (by norm_num)
      rw [cast_unitsOfOne, four_ones, value, zpow_sub₀ (by norm_num), zpow_natCast, zpow_ofNat,
        pow_eq]
      simp only [Nat.cast_mul, Nat.cast_pow, Nat.cast_ofNat]
      generalize (10 : ℚ) ^ 340 = scale at *
      generalize (Binary64.one : ℚ) = one
      field_simp
    rw [Option.getD_some, hvalue]
    exact hpoint

/-- No number lies in the intervals of two magnitudes. -/
theorem units_eq_of_encloses {x y : Float} {s t : Bool} {units units' : Nat}
    (hx : Datum.ofFloat x = .finite s units) (hy : Datum.ofFloat y = .finite t units') {v : ℚ}
    (h : (Interval.ofUnits units).encloses v) (h' : (Interval.ofUnits units').encloses v) :
    units = units' := by
  obtain ⟨m, k, hm, rfl⟩ := exists_aligned hx
  obtain ⟨n, l, hn, rfl⟩ := exists_aligned hy
  rcases Nat.lt_trichotomy (m * 2 ^ k) (n * 2 ^ l) with hlt | heq | hgt
  · exact ((Interval.below_of_lt hm hn hlt).not_encloses h h').elim
  · exact heq
  · exact ((Interval.below_of_lt hn hm hgt).not_encloses h' h).elim

end Decimal
end SymbolicAlgebra
