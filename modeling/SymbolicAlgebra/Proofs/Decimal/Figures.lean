import Mathlib.Algebra.Order.Field.Basic
import Mathlib.Data.Nat.Cast.Field
import SymbolicAlgebra.Proofs.Decimal.Enclosure

/-!
# The figures of a number's text

A finite double is written with digits, with a point and more digits if there is
a fraction, and with a negative exponent if it is small. So its text has a value
of its own, which lies in the interval of the double, and a text that other text
follows can be told from it as long as that begins neither with a digit nor with
a point, and not like an exponent.

Results:
* `exists_figures`: the text of a finite double.
* `Figures.append_inj`: figures are told from what follows them.
* `text_append_inj`: the text of a double is told from what follows it, and it determines
  the double.
-/
namespace SymbolicAlgebra

open Binary64
open Token (Stops stops_cons append_inj_of_stops)

namespace Decimal

/-- Digits behind a mark, which is left out where there are none. -/
def marked (mark : List Char) : List Char → List Char
  | [] => []
  | d :: ds => mark ++ d :: ds

/-- Digits, digits behind a point and the digits of a negative exponent. -/
@[ext]
structure Figures where
  whole : List Char
  fraction : List Char
  exponent : List Char
  whole_ne_nil : whole ≠ []
  isDigit_whole : ∀ c ∈ whole, c.isDigit = true
  isDigit_fraction : ∀ c ∈ fraction, c.isDigit = true
  isDigit_exponent : ∀ c ∈ exponent, c.isDigit = true

namespace Figures

def text (f : Figures) : List Char :=
  f.whole ++ (marked ['.'] f.fraction ++ marked ['e', '-'] f.exponent)

/-- The number that the digits spell. -/
def value (f : Figures) : ℚ :=
  Nat.ofDigitChars 10 (f.whole ++ f.fraction) 0 *
    10 ^ (-(f.fraction.length : Int) - (Nat.ofDigitChars 10 f.exponent 0 : Nat))

end Figures

/-- Figures begin with a digit. -/
theorem Figures.head (f : Figures) : ∃ c cs, f.text = c :: cs ∧ c.isDigit = true := by
  obtain ⟨c, cs, hwhole⟩ := List.exists_cons_of_ne_nil f.whole_ne_nil
  have hdigit : c.isDigit = true := f.isDigit_whole c (by rw [hwhole]; exact List.mem_cons_self)
  exact ⟨c, _, by rw [text, hwhole]; rfl, hdigit⟩

/-! ## What is written -/

theorem isDigit_of_mem_toDigits {n : Nat} {c : Char} (h : c ∈ Nat.toDigits 10 n) :
    c.isDigit = true :=
  Nat.isDigit_of_mem_toDigits (by decide) (by decide) h

theorem toDigits_ne_nil (n : Nat) : Nat.toDigits 10 n ≠ [] :=
  List.ne_nil_of_length_pos Nat.length_toDigits_pos

/-- The figures of a natural number. -/
def Figures.ofNat (n : Nat) : Figures where
  whole := Nat.toDigits 10 n
  fraction := []
  exponent := []
  whole_ne_nil := toDigits_ne_nil n
  isDigit_whole _ := isDigit_of_mem_toDigits
  isDigit_fraction := List.forall_mem_nil _
  isDigit_exponent := List.forall_mem_nil _

theorem Figures.text_ofNat (n : Nat) : (Figures.ofNat n).text = (toString n).toList := by
  rw [Nat.toString_eq_repr, Nat.toList_repr]
  simp [Figures.text, Figures.ofNat, marked]

theorem Figures.value_ofNat (n : Nat) : (Figures.ofNat n).value = n := by
  simp [Figures.value, Figures.ofNat]

theorem marked_of_ne_nil {mark ds : List Char} (h : ds ≠ []) : marked mark ds = mark ++ ds := by
  cases ds with
  | nil => exact absurd rfl h
  | cons d ds => rfl

theorem isDigit_of_mem_zeros {k : Nat} : ∀ c ∈ List.replicate k '0', c.isDigit = true :=
  fun _ h => isDigit_of_mem_replicate h

section
variable {digits : List Char} {n : Nat} {exponent : Int}
variable (hdigits : ∀ c ∈ digits, c.isDigit = true) (hne : digits ≠ [])
variable (hvalue : Nat.ofDigitChars 10 digits 0 = n)
include hdigits hne hvalue

/-- The zeros of a number that is less than one are written between the point and the digits. -/
theorem exists_figures_zeros_before (hpoint : (digits.length : Int) + exponent ≤ 0) :
    ∃ f : Figures, positional Layout.answer digits (digits.length + exponent) = f.text ∧
      f.value = (⟨n, exponent⟩ : Decimal).value := by
  obtain ⟨zeros, hzeros⟩ : ∃ zeros : Nat, -((digits.length : Int) + exponent) = zeros :=
    Int.eq_ofNat_of_zero_le (by omega)
  have hfraction : List.replicate zeros '0' ++ digits ≠ [] := by simp [hne]
  refine ⟨⟨['0'], List.replicate zeros '0' ++ digits, [], by decide,
    List.forall_mem_singleton.mpr rfl,
    List.forall_mem_append.mpr ⟨isDigit_of_mem_zeros, hdigits⟩, List.forall_mem_nil _⟩, ?_, ?_⟩
  · rw [positional, if_pos hpoint, hzeros, Int.toNat_natCast, Figures.text,
      marked_of_ne_nil hfraction]
    simp [marked]
  · have hexp : (-(zeros + digits.length : Nat) : Int) - (0 : Nat) = exponent := by omega
    simp only [Figures.value, Decimal.value, Nat.ofDigitChars_append, List.length_append,
      List.length_replicate, Nat.ofDigitChars_nil]
    rw [hexp]
    simp [Nat.ofDigitChars_cons, Nat.ofDigitChars_replicate_zero, hvalue]

/-- The zeros of an integer are written behind the digits, and then a fraction of zero. -/
theorem exists_figures_zeros_behind (hexponent : 0 ≤ exponent) :
    ∃ f : Figures, positional Layout.answer digits (digits.length + exponent) = f.text ∧
      f.value = (⟨n, exponent⟩ : Decimal).value := by
  obtain ⟨zeros, rfl⟩ := Int.eq_ofNat_of_zero_le hexponent
  have hlength := List.length_pos_iff.mpr hne
  have hzeros : ((digits.length : Int) + zeros).toNat - digits.length = zeros := by omega
  refine ⟨⟨digits ++ List.replicate zeros '0', ['0'], [], by simp [hne],
    List.forall_mem_append.mpr ⟨hdigits, isDigit_of_mem_zeros⟩,
    List.forall_mem_singleton.mpr rfl, List.forall_mem_nil _⟩, ?_, ?_⟩
  · rw [positional, if_neg (by omega), if_pos (by omega), hzeros]
    rfl
  · simp only [Figures.value, Decimal.value, Nat.ofDigitChars_append, hvalue,
      Nat.ofDigitChars_replicate_zero, Nat.ofDigitChars_nil]
    simp [Nat.ofDigitChars_cons]
    field_simp

/-- The point is written among the digits of any other number. -/
theorem exists_figures_point_among (hpoint : 0 < (digits.length : Int) + exponent)
    (hexponent : exponent < 0) :
    ∃ f : Figures, positional Layout.answer digits (digits.length + exponent) = f.text ∧
      f.value = (⟨n, exponent⟩ : Decimal).value := by
  obtain ⟨point, hplace⟩ := Int.eq_ofNat_of_zero_le hpoint.le
  have htake : digits.take point ≠ [] := by
    simp only [ne_eq, List.take_eq_nil_iff, hne, or_false]
    omega
  have hdrop : digits.drop point ≠ [] := by
    simp only [ne_eq, List.drop_eq_nil_iff]
    omega
  refine ⟨⟨digits.take point, digits.drop point, [], htake,
    fun c hc => hdigits c (List.mem_of_mem_take hc),
    fun c hc => hdigits c (List.mem_of_mem_drop hc), List.forall_mem_nil _⟩, ?_, ?_⟩
  · rw [positional, if_neg (by omega), if_neg (by omega), hplace, Int.toNat_natCast, Figures.text,
      marked_of_ne_nil hdrop]
    simp [marked]
  · have hexp : (-(digits.length - point : Nat) : Int) - (0 : Nat) = exponent := by omega
    simp only [Figures.value, Decimal.value, List.take_append_drop, hvalue, List.length_drop,
      Nat.ofDigitChars_nil]
    rw [hexp]

/-- A number that is written with a negative exponent has one digit before the point. -/
theorem exists_figures_lead (hexponent : (digits.length : Int) + exponent - 1 < 0) :
    ∃ f : Figures, scientific Layout.answer digits (digits.length + exponent - 1) = f.text ∧
      f.value = (⟨n, exponent⟩ : Decimal).value := by
  obtain ⟨lead, hlead⟩ : ∃ lead, lead = (digits.length : Int) + exponent - 1 := ⟨_, rfl⟩
  rw [← hlead] at hexponent ⊢
  have hfigures : ∀ c ∈ List.replicate (2 - (Nat.toDigits 10 lead.natAbs).length) '0' ++
      Nat.toDigits 10 lead.natAbs, c.isDigit = true :=
    List.forall_mem_append.mpr ⟨isDigit_of_mem_zeros, fun _ => isDigit_of_mem_toDigits⟩
  have hlength := List.length_pos_iff.mpr hne
  refine ⟨⟨digits.take 1, digits.drop 1, _, by simp [hne],
    fun c hc => hdigits c (List.mem_of_mem_take hc),
    fun c hc => hdigits c (List.mem_of_mem_drop hc), hfigures⟩, ?_, ?_⟩
  · have hmarked : marked ['.'] (digits.drop 1) =
        if digits.length ≤ 1 then [] else '.' :: digits.drop 1 := by
      split
      · next hle => rw [List.drop_eq_nil_of_le hle]; rfl
      · next hle => exact marked_of_ne_nil fun hnil => hle (List.drop_eq_nil_iff.mp hnil)
    rw [Figures.text, hmarked, marked_of_ne_nil (by simp), scientific, exponentText,
      if_pos hexponent]
    simp [Layout.answer]
  · have hexp : (-(digits.length - 1 : Nat) : Int) - lead.natAbs = exponent := by omega
    simp only [Figures.value, Decimal.value, List.take_append_drop, hvalue, List.length_drop,
      Nat.ofDigitChars_append, Nat.ofDigitChars_replicate_zero, Nat.mul_zero,
      Nat.ofDigitChars_ten_toDigits]
    rw [hexp]

end

/-- A number that is written positionally. -/
theorem exists_figures_positional (n : Nat) (exponent : Int) :
    ∃ f : Figures, positional Layout.answer (Nat.toDigits 10 n)
        ((Nat.toDigits 10 n).length + exponent) = f.text ∧
      f.value = (⟨n, exponent⟩ : Decimal).value := by
  have hdigits : ∀ c ∈ Nat.toDigits 10 n, c.isDigit = true := fun _ => isDigit_of_mem_toDigits
  have hne := toDigits_ne_nil n
  have hvalue := @Nat.ofDigitChars_ten_toDigits n
  by_cases hpoint : ((Nat.toDigits 10 n).length : Int) + exponent ≤ 0
  · exact exists_figures_zeros_before hdigits hne hvalue hpoint
  by_cases hexponent : 0 ≤ exponent
  · exact exists_figures_zeros_behind hdigits hne hvalue hexponent
  · exact exists_figures_point_among hdigits hne hvalue (by omega) (by omega)

/-- A number that is written with a negative exponent. -/
theorem exists_figures_scientific (n : Nat) {exponent : Int}
    (h : (Nat.toDigits 10 n).length + exponent - 1 < 0) :
    ∃ f : Figures, scientific Layout.answer (Nat.toDigits 10 n)
        ((Nat.toDigits 10 n).length + exponent - 1) = f.text ∧
      f.value = (⟨n, exponent⟩ : Decimal).value :=
  exists_figures_lead (fun _ => isDigit_of_mem_toDigits) (toDigits_ne_nil n)
    Nat.ofDigitChars_ten_toDigits h

/-- A positive number that is less than `10 ^ 16` is written without a positive exponent. -/
theorem exists_figures_write {d : Decimal} (hpos : 0 < d.value) (hlt : d.value < 10 ^ (16 : Int)) :
    ∃ f : Figures, write Layout.answer d = f.text ∧ f.value = d.value := by
  have htrim := value_trim (width d.digits) d
  rw [← htrim] at hpos hlt ⊢
  have hlow : (10 : ℚ) ^ (trim (width d.digits) d).exponent ≤ (trim (width d.digits) d).value := by
    have hexp : (0 : ℚ) < 10 ^ (trim (width d.digits) d).exponent := by positivity
    have hdigits : 1 ≤ (trim (width d.digits) d).digits := by
      refine Nat.one_le_iff_ne_zero.mpr fun hzero => hpos.ne' ?_
      rw [value, hzero, Nat.cast_zero, zero_mul]
    exact le_mul_of_one_le_left hexp.le (by exact_mod_cast hdigits)
  obtain ⟨-, hpoint⟩ := point_bounds hlow hlt
  unfold write
  dsimp only
  generalize trim (width d.digits) d = d' at *
  by_cases hplace : Layout.answer.least < ((Nat.toDigits 10 d'.digits).length : Int) + d'.exponent ∧
      ((Nat.toDigits 10 d'.digits).length : Int) + d'.exponent ≤ Layout.answer.most + 1
  · rw [if_pos hplace]
    exact exists_figures_positional d'.digits d'.exponent
  · rw [if_neg hplace]
    refine exists_figures_scientific d'.digits ?_
    have hmost : ((Nat.toDigits 10 d'.digits).length : Int) + d'.exponent ≤ 16 := hpoint
    have hleast : ¬ (-4 < ((Nat.toDigits 10 d'.digits).length : Int) + d'.exponent ∧
      ((Nat.toDigits 10 d'.digits).length : Int) + d'.exponent ≤ 15 + 1) := hplace
    omega

/-! ## Telling figures from what follows them -/

/-- What the digits of a number do not go on with. -/
def Ends (rest : List Char) : Prop := Stops (fun c => c.isDigit || c == '.') rest

theorem Ends.stops {rest : List Char} (h : Ends rest) : Stops Char.isDigit rest := by
  intro c after hrest
  have hc := h c after hrest
  simp only [Bool.or_eq_false_iff] at hc
  exact hc.1

theorem stops_marked {p : Char → Bool} {m : Char} {mark ds rest : List Char} (hm : p m = false)
    (h : Stops p rest) : Stops p (marked (m :: mark) ds ++ rest) := by
  cases ds with
  | nil => exact h
  | cons d ds => exact stops_cons hm

/-- Digits behind a mark are told from the rest, unless the rest brings the mark. -/
theorem marked_append_inj {mark ds es rest after : List Char} (hds : ∀ d ∈ ds, d.isDigit = true)
    (hes : ∀ e ∈ es, e.isDigit = true) (hrest : Ends rest) (hafter : Ends after)
    (h : marked mark ds ++ rest = marked mark es ++ after) :
    ds = es ∧ rest = after ∨ ds = [] ∧ es ≠ [] ∧ rest = mark ++ (es ++ after) ∨
      ds ≠ [] ∧ es = [] ∧ after = mark ++ (ds ++ rest) := by
  by_cases hnone : ds = [] <;> by_cases hnone' : es = []
  · subst hnone hnone'
    exact .inl ⟨rfl, h⟩
  · rw [marked_of_ne_nil hnone', List.append_assoc] at h
    subst hnone
    exact .inr (.inl ⟨rfl, hnone', h⟩)
  · rw [marked_of_ne_nil hnone, List.append_assoc] at h
    subst hnone'
    exact .inr (.inr ⟨hnone, rfl, h.symm⟩)
  · rw [marked_of_ne_nil hnone, marked_of_ne_nil hnone', List.append_assoc, List.append_assoc,
      List.append_cancel_left_eq] at h
    exact .inl (append_inj_of_stops hds hes hrest.stops hafter.stops h)

/-- Figures that differ in the exponent alone, which one of them lacks. -/
theorem Figures.text_of_exponent {f g : Figures} (hwhole : f.whole = g.whole)
    (hfraction : f.fraction = g.fraction) (hnone : f.exponent = []) (hsome : g.exponent ≠ []) :
    g.text = f.text ++ 'e' :: '-' :: g.exponent := by
  rw [text, text, hwhole, hfraction, hnone, marked_of_ne_nil hsome]
  simp [marked]

/-- Figures are told from the rest, unless the rest brings an exponent to figures without one. -/
theorem Figures.append_inj {f g : Figures} {rest after : List Char} (hrest : Ends rest)
    (hafter : Ends after) (h : f.text ++ rest = g.text ++ after) :
    f = g ∧ rest = after ∨
      (∃ ds, g.text = f.text ++ 'e' :: '-' :: ds ∧ rest = 'e' :: '-' :: (ds ++ after)) ∨
      ∃ ds, f.text = g.text ++ 'e' :: '-' :: ds ∧ after = 'e' :: '-' :: (ds ++ rest) := by
  have hends : ∀ (f : Figures) {rest : List Char}, Ends rest →
      Ends (marked ['e', '-'] f.exponent ++ rest) := fun _ _ h => stops_marked (by decide) h
  simp only [Figures.text, List.append_assoc] at h
  obtain ⟨hwhole, h⟩ := append_inj_of_stops f.isDigit_whole g.isDigit_whole
    (stops_marked (by decide) (hends f hrest).stops)
    (stops_marked (by decide) (hends g hafter).stops) h
  -- neither an exponent nor the rest begins with a point
  have hpoint : ∀ {f : Figures} {rest ds : List Char}, Ends rest →
      marked ['e', '-'] f.exponent ++ rest ≠ '.' :: ds := fun hrest heq => by
    cases hends _ hrest _ _ heq
  obtain ⟨hfraction, h⟩ | ⟨-, -, h⟩ | ⟨-, -, h⟩ := marked_append_inj f.isDigit_fraction
    g.isDigit_fraction (hends f hrest) (hends g hafter) h
  · obtain ⟨hexponent, h⟩ | ⟨hnone, hsome, h⟩ | ⟨hsome, hnone, h⟩ :=
      marked_append_inj f.isDigit_exponent g.isDigit_exponent hrest hafter h
    · exact .inl ⟨Figures.ext hwhole hfraction hexponent, h⟩
    · exact .inr (.inl ⟨g.exponent, text_of_exponent hwhole hfraction hnone hsome, h⟩)
    · exact .inr (.inr ⟨f.exponent, text_of_exponent hwhole.symm hfraction.symm hnone hsome, h⟩)
  · exact absurd h (hpoint hrest)
  · exact absurd h (hpoint hafter)

end Decimal

namespace Binary64

/-- The digits of a whole double are its value. -/
theorem encloses_ofNat {units : Nat} (hwhole : units % one = 0) :
    (Decimal.Interval.ofUnits units).encloses
      ((Decimal.Figures.ofNat (units / one)).value * Decimal.unitsOfOne) := by
  have hexact : ((units / one : Nat) : ℚ) = units / one :=
    Nat.cast_div (Nat.dvd_of_mod_eq_zero hwhole) (by exact_mod_cast Decimal.one_pos.ne')
  rw [Decimal.Figures.value_ofNat, hexact, ← Decimal.Interval.cast_value]
  exact Decimal.Interval.encloses_value units

/-- The shortest decimal of a double small enough for a fraction has at most sixteen digits before
its point. -/
theorem shortest_value_bounds {units : Nat} (hne : units ≠ 0) (hlt : 2 * units < 2 ^ 53 * one) :
    0 < (Decimal.shortest units).value ∧ (Decimal.shortest units).value < 10 ^ (16 : Int) := by
  obtain ⟨hlow, hhigh⟩ := Decimal.bounds_of_encloses hne (Decimal.encloses_shortest units)
  have hone : (0 : ℚ) < one := by exact_mod_cast Decimal.one_pos
  have hunits : (0 : ℚ) < units / one := div_pos (by exact_mod_cast Nat.pos_of_ne_zero hne) hone
  have hsmall : 2 * ((units : ℚ) / one) < 2 ^ 53 := by
    rw [← mul_div_assoc]
    exact (div_lt_iff₀ hone).mpr (by exact_mod_cast hlt)
  refine ⟨by linarith, ?_⟩
  calc (Decimal.shortest units).value ≤ 2 * ((units : ℚ) / one) := hhigh
    _ < 2 ^ 53 := hsmall
    _ < 10 ^ (16 : Int) := by norm_num

/-- The text of a finite double: figures whose value reads back, behind a sign if the double is
negative. -/
theorem exists_figures {x : Float} {negative : Bool} {units : Nat}
    (h : Datum.ofFloat x = .finite negative units) :
    ∃ f : Decimal.Figures,
      (text x).toList = (if negative ∧ units ≠ 0 then ['-'] else []) ++ f.text ∧
      (Decimal.Interval.ofUnits units).encloses (f.value * Decimal.unitsOfOne) := by
  unfold text
  rw [h]
  dsimp only
  by_cases hwhole : units % one = 0
  · refine ⟨Decimal.Figures.ofNat (units / one), ?_, encloses_ofNat hwhole⟩
    rw [if_pos hwhole, Decimal.Figures.text_ofNat]
    by_cases hzero : units = 0
    · rw [if_pos hzero, if_neg (by simp [hzero]), hzero, Nat.zero_div]
      rfl
    · rw [if_neg hzero, String.toList_append]
      cases negative <;> simp [hzero]
  · have hne : units ≠ 0 := by
      rintro rfl
      exact hwhole (Nat.zero_mod _)
    obtain ⟨hpos, hsmall⟩ := shortest_value_bounds hne (units_lt_of_not_whole h hwhole)
    obtain ⟨f, hf, hvalue⟩ := Decimal.exists_figures_write hpos hsmall
    refine ⟨f, ?_, hvalue ▸ Decimal.encloses_shortest units⟩
    rw [if_neg hwhole]
    unfold answer write
    rw [h]
    simp only [if_neg hne, hf, String.toList_ofList]
    cases negative <;> simp [hne]

/-- The text of a finite double without a sign. -/
theorem exists_figures_of_unsigned {x : Float} (h : Unsigned x.toModel.unpack)
    (hx : x.isFinite = true) : ∃ f : Decimal.Figures, (text x).toList = f.text := by
  have hx : x.toModel.unpack.isFinite = true := hx
  obtain ⟨units, hunits⟩ : ∃ units, Datum.ofFloat x = .finite false units := by
    rw [ofFloat_eq]
    cases hu : x.toModel.unpack with
    | notANumber | infinity s =>
      rw [hu] at hx
      cases hx
    | zero s | finite s m e hm =>
      rw [hu] at h
      obtain rfl : s = .positive := h
      exact ⟨_, rfl⟩
  obtain ⟨f, htext, -⟩ := exists_figures hunits
  exact ⟨f, htext.trans (by simp)⟩

/-! ## Every double -/

/-- A text behind a minus sign if there is one. -/
def signed (negative : Bool) (cs : List Char) : List Char := if negative then '-' :: cs else cs

/-- What the text of a double is behind its sign. Zero has none. -/
inductive Spelled : Datum → Bool → List Char → Prop
  | undefined : Spelled .undefined false ['N', 'a', 'N']
  | infinite (negative : Bool) : Spelled (.infinite negative) negative ['i', 'n', 'f']
  | finite {negative : Bool} {units : Nat} (f : Decimal.Figures)
      (h : (Decimal.Interval.ofUnits units).encloses (f.value * Decimal.unitsOfOne)) :
      Spelled (.finite negative units) (negative && units != 0) f.text

theorem exists_spelled (x : Float) :
    ∃ negative cs, Spelled (Datum.ofFloat x) negative cs ∧
      (text x).toList = signed negative cs := by
  cases hx : Datum.ofFloat x with
  | undefined => exact ⟨_, _, .undefined, by simp [text, hx, signed]⟩
  | infinite negative =>
    exact ⟨_, _, .infinite negative, by cases negative <;> simp [text, hx, signed]⟩
  | finite negative units =>
    obtain ⟨f, htext, hencloses⟩ := exists_figures hx
    refine ⟨_, _, .finite f hencloses, htext.trans ?_⟩
    clear hencloses
    cases negative <;> by_cases h : units = 0 <;> simp [signed, h]

/-- The characters that the text of a double begins with, behind its sign. -/
def leads : Datum → Char → Bool
  | .undefined, c => c == 'N'
  | .infinite _, c => c == 'i'
  | .finite _ _, c => c.isDigit

theorem Spelled.head {d : Datum} {negative : Bool} {cs : List Char} (h : Spelled d negative cs) :
    ∃ c after, cs = c :: after ∧ leads d c = true := by
  cases h with
  | undefined | infinite negative => exact ⟨_, _, rfl, rfl⟩
  | finite f h => exact f.head

theorem ne_minus_of_leads {d : Datum} {c : Char} (h : leads d c = true) : c ≠ '-' := by
  rintro rfl
  cases d <;> cases h

theorem same_of_undefined {x y : Float} (hx : Datum.ofFloat x = .undefined)
    (hy : Datum.ofFloat y = .undefined) : Scalar.same x y = true := by
  have hnan : ∀ {z : Float}, Datum.ofFloat z = .undefined → z.isNaN = true := fun {z} hz => by
    rw [ofFloat_eq] at hz
    show z.toModel.unpack.isNaN = true
    cases hu : z.toModel.unpack with
    | notANumber => rfl
    | infinity _ | zero _ | finite _ _ _ _ =>
      rw [hu] at hz
      cases hz
  show (x == y || (x.isNaN && y.isNaN)) = true
  rw [hnan hx, hnan hy, Bool.and_self, Bool.or_true]

theorem same_of_beq {x y : Float} (h : (x == y) = true) : Scalar.same x y = true := by
  show (x == y || (x.isNaN && y.isNaN)) = true
  rw [h, Bool.true_or]

theorem same_of_infinite {x y : Float} {negative : Bool}
    (hx : Datum.ofFloat x = .infinite negative) (hy : Datum.ofFloat y = .infinite negative) :
    Scalar.same x y = true := by
  have hunpack : ∀ {z : Float}, Datum.ofFloat z = .infinite negative →
      ∃ s, z.toModel.unpack = .infinity s ∧ isMinus s = negative := fun {z} hz => by
    rw [ofFloat_eq] at hz
    cases hu : z.toModel.unpack with
    | infinity s =>
      rw [hu] at hz
      cases hz
      exact ⟨s, rfl, rfl⟩
    | notANumber | zero _ | finite _ _ _ _ =>
      rw [hu] at hz
      cases hz
  obtain ⟨s, hx, hs⟩ := hunpack hx
  obtain ⟨t, hy, ht⟩ := hunpack hy
  refine same_of_beq ?_
  show (x.toModel.unpack.compare y.toModel.unpack == some .eq) = true
  rw [hx, hy]
  cases s <;> cases t <;> first | rfl | (rw [← hs] at ht; cases ht)

/-- Finite doubles of one magnitude and, unless that is zero, of one sign are the same number. -/
theorem same_of_finite {x y : Float} {s t : Bool} {units : Nat}
    (hx : Datum.ofFloat x = .finite s units) (hy : Datum.ofFloat y = .finite t units)
    (hsign : (s && units != 0) = (t && units != 0)) : Scalar.same x y = true := by
  refine same_of_beq (beq_of_rational? (rational?_of_ofFloat hx) ?_)
  rw [rational?_of_ofFloat hy]
  by_cases hzero : units = 0
  · rw [hzero, Nat.cast_zero, zero_div, neg_zero, ite_self, ite_self]
  · have hst : s = t := by
      rw [bne_iff_ne.mpr hzero] at hsign
      simpa using hsign
    rw [hst]

/-- What the text of a number does not go on with: neither more digits nor an exponent. -/
structure EndsNumber (rest : List Char) : Prop where
  ends : Decimal.Ends rest
  no_exponent : ∀ after, rest ≠ 'e' :: '-' :: after

theorem signed_append_inj {s t : Bool} {c d : Char} {cs ds rest after : List Char} (hc : c ≠ '-')
    (hd : d ≠ '-') (h : signed s (c :: cs) ++ rest = signed t (d :: ds) ++ after) :
    s = t ∧ c = d ∧ c :: cs ++ rest = d :: ds ++ after := by
  cases s <;> cases t
  case false.false => exact ⟨rfl, (List.cons.inj h).1, h⟩
  case true.true =>
    have hrest := (List.cons.inj h).2
    exact ⟨rfl, (List.cons.inj hrest).1, hrest⟩
  case false.true => exact absurd (List.cons.inj h).1 hc
  case true.false => exact absurd (List.cons.inj h).1.symm hd

/-- The text of a number is told from what follows it, and it determines the number. -/
theorem Spelled.append_inj {x y : Float} {d e : Datum} {s t : Bool} {cs ds rest after : List Char}
    (hx : Datum.ofFloat x = d) (hy : Datum.ofFloat y = e) (hd : Spelled d s cs)
    (he : Spelled e t ds) (hrest : EndsNumber rest) (hafter : EndsNumber after)
    (h : signed s cs ++ rest = signed t ds ++ after) :
    Scalar.same x y = true ∧ rest = after := by
  obtain ⟨c, cs', hcs, hc⟩ := hd.head
  obtain ⟨c', ds', hds, hc'⟩ := he.head
  rw [hcs, hds] at h
  obtain ⟨hsign, rfl, h⟩ := signed_append_inj (ne_minus_of_leads hc) (ne_minus_of_leads hc') h
  rw [← hcs, ← hds] at h
  clear hcs hds
  cases hd with
  | undefined =>
    obtain rfl : c = 'N' := by simpa [leads] using hc
    cases he with
    | undefined => exact ⟨same_of_undefined hx hy, by simpa using h⟩
    | infinite _ | finite g _ => cases hc'
  | infinite _ =>
    obtain rfl : c = 'i' := by simpa [leads] using hc
    cases he with
    | infinite _ => exact ⟨same_of_infinite hx (hsign ▸ hy), by simpa using h⟩
    | undefined | finite g _ => cases hc'
  | finite f hf =>
    cases he with
    | finite g hg =>
      obtain ⟨rfl, hrest'⟩ | ⟨_, -, hr⟩ | ⟨_, -, hr⟩ :=
        Decimal.Figures.append_inj hrest.ends hafter.ends h
      · obtain rfl := Decimal.units_eq_of_encloses hx hy hf hg
        exact ⟨same_of_finite hx hy hsign, hrest'⟩
      · exact absurd hr (hrest.no_exponent _)
      · exact absurd hr (hafter.no_exponent _)
    | undefined | infinite _ =>
      simp only [leads, beq_iff_eq] at hc'
      subst hc'
      cases hc

theorem text_append_inj {x y : Float} {rest after : List Char} (hrest : EndsNumber rest)
    (hafter : EndsNumber after) (h : (text x).toList ++ rest = (text y).toList ++ after) :
    Scalar.same x y = true ∧ rest = after := by
  obtain ⟨s, cs, hx, htext⟩ := exists_spelled x
  obtain ⟨t, ds, hy, htext'⟩ := exists_spelled y
  rw [htext, htext'] at h
  exact hx.append_inj rfl rfl hy hrest hafter h

end Binary64
end SymbolicAlgebra
