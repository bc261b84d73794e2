import SymbolicAlgebra.Proofs.Exact.Simplify

/-!
# Trees without quotients

Numbers and monomials under sums, differences, products, remainders, negations
and squares: the rules make such trees of such trees, and no rule that applies
to one asks whether a base is zero. Remainders are read with the sign of the
dividend, as folding computes them.

The monomials may have any exponents, so one rule remains that can change a
value: a monomial with the exponent zero becomes `1`, whatever its coefficient
is. A pass applies it only to monomials that stand in the tree it starts from.

Results:
* `QuotientFree.contracts`: a rule makes no quotient, and so neither does a pass
  (`QuotientFree.pass`) nor a folding (`QuotientFree.fold`).
* `value_pass`, `value_fold`: a pass and a folding keep the value, the pass if no
  monomial with the exponent zero stands for another number than it becomes.
* `simplify_quotientFree`: so does the simplifier, if this holds of every tree
  that a round starts from.
-/
namespace SymbolicAlgebra

namespace Expr

section
variable {α : Type} [Scalar α]

/-- `s` is a tree that a round of simplifying `e` starts from. -/
inductive Visits (target : String) (e : Expr α) : Expr α → Prop
  | start : Visits target e e
  | next {s s'} : Visits target e s → fold (pass target s).value = .ok s' → Visits target e s'

/-- Whether an operation is none of those left out, a power being a square. -/
def Joins (r : Expr α) : Operator → Prop
  | .add | .sub | .mul | .mod => True
  | .pow => r = literal 2
  | .div | .equals => False

/-- Numbers and monomials under sums, differences, products, remainders, negations and squares. -/
def QuotientFree : Expr α → Prop
  | .number _ | .monomial _ => True
  | .negate e => QuotientFree e
  | .binary op l r => Joins r op ∧ QuotientFree l ∧ QuotientFree r
  | .call _ _ | .constant _ _ => False

variable {e e' r : Expr α} {op : Operator} {target : String}

theorem joins_of_isAdditive (h : op.isAdditive = true) : Joins r op := by
  cases op with
  | add | sub => trivial
  | _ => cases h

theorem mul_of_joins (h : Joins r op) (hop : op.isMultiplicative = true) : op = .mul := by
  cases op with
  | mul => rfl
  | div => exact h.elim
  | _ => cases hop

/-- The exponent of a square is a literal, so that a pass and a folding leave it. -/
theorem joins_pass (target : String) (h : Joins r op) : Joins (pass target r).value op := by
  cases op with
  | pow =>
    obtain rfl : r = literal 2 := h
    rfl
  | _ => exact h

theorem joins_fold (h : Joins r op) (hr : fold r = .ok e') : Joins e' op := by
  cases op with
  | pow =>
    obtain rfl : r = literal 2 := h
    cases hr
    rfl
  | _ => exact h

/-- A folding makes no quotient. -/
theorem QuotientFree.fold (he : QuotientFree e) (h : Expr.fold e = .ok e') : QuotientFree e' := by
  induction e generalizing e' with
  | number _ | monomial _ =>
    cases h
    trivial
  | negate e ih =>
    obtain ⟨a, ha, rfl⟩ := fold_negate_eq_ok.mp h
    have hfree : QuotientFree a := ih he ha
    exact hfree
  | binary op l r ihl ihr =>
    obtain ⟨a, ha, b, hb, hab⟩ := fold_binary_eq_ok.mp h
    obtain ⟨hop, hl, hr⟩ := he
    rcases foldBinary_eq_ok hab with ⟨_, _⟩ | ⟨rfl, -⟩
    · trivial
    · exact ⟨joins_fold hop hb, ihl hl ha, ihr hr hb⟩
  | call _ _ | constant _ _ => exact he.elim

variable [LawfulSign α]

/-- Squares of equal bases are equal. -/
theorem repeats_squares {a a' b c : Expr α} (ha : a.same a' = true) (hb : b = literal 2)
    (hc : c = literal 2) : (binary .pow a b).repeats (.binary .pow a' c) = true := by
  subst hb hc
  rw [repeats, same, ha, same_self LawfulSign.same_self]
  rfl

/-- A rule makes no quotient. -/
theorem QuotientFree.contracts (he : QuotientFree e) (h : Contracts target e e') :
    QuotientFree e' := by
  cases h with
  | zeroPlus _ | oneTimes _ => exact he.2.2
  | plusZero _ | minusZero _ | timesOne _ | powerOne _ => exact he.2.1
  | minusSelf _ | zeroTimes _ | timesZero _ | powerZero _ | zeroCoefficient _ | zeroExponent _ =>
    trivial
  | plusSelf _ => exact ⟨trivial, trivial, he.2.1⟩
  | plusNegated | minusNegated => exact ⟨trivial, he.2.1, he.2.2⟩
  | zeroMinus _ => exact he.2.2
  | timesSelf _ => exact ⟨rfl, he.2.1, trivial⟩
  | timesPower ha hne =>
    -- both powers are squares, so they are equal and are squared instead
    obtain ⟨-, ⟨hb, -⟩, ⟨hc, -⟩⟩ := he
    rw [repeats_squares ha hb hc] at hne
    cases hne
  | timesSum hop =>
    obtain ⟨-, hn, -, hb, hc⟩ := he
    exact ⟨joins_of_isAdditive hop, ⟨trivial, hn, hb⟩, ⟨trivial, hn, hc⟩⟩
  | timesMonomial | merged _ | negativeCoefficient _ => trivial
  | overOne _ | monomialOver | overSelf _ => exact he.1.elim
  | powerNegated => cases he.1
  | negatedNegation => exact he
  | negatedSum hop =>
    obtain ⟨-, hl, hr⟩ := he
    exact ⟨joins_of_isAdditive hop, hl, hr⟩
  | negatedProduct _ => exact he
  | hoistedRight hpast _ _ =>
    obtain ⟨hop, ⟨hin, ha, hb⟩, hm⟩ := he
    rcases Bool.or_eq_true_iff.mp hpast with hpast | hpast
    · obtain ⟨hadd, hadd'⟩ := Bool.and_eq_true_iff.mp hpast
      exact ⟨joins_of_isAdditive hadd', ⟨joins_of_isAdditive hadd, ha, hm⟩, hb⟩
    · obtain ⟨hmul, hmul'⟩ := Bool.and_eq_true_iff.mp hpast
      obtain rfl := mul_of_joins hop hmul
      obtain rfl := mul_of_joins hin hmul'
      exact ⟨trivial, ⟨trivial, ha, hm⟩, hb⟩
  | hoistedSum hadd _ _ | hoistedDifference hadd _ _ =>
    obtain ⟨-, ⟨-, ha, hb⟩, hm⟩ := he
    exact ⟨trivial, ⟨joins_of_isAdditive hadd, hm, hb⟩, ha⟩
  | hoistedProduct hmul _ _ =>
    obtain ⟨-, ⟨hin, ha, hb⟩, hm⟩ := he
    obtain rfl := mul_of_joins hin hmul
    exact ⟨trivial, ⟨trivial, hm, hb⟩, ha⟩

theorem QuotientFree.step (he : QuotientFree e) (target : String) :
    QuotientFree (Traced.ofStep (contract? target e) e).value := by
  cases hc : contract? target e with
  | none => exact he
  | some step => exact he.contracts (contracts_of_contract? hc)

/-- A pass makes no quotient. -/
theorem QuotientFree.pass (he : QuotientFree e) (target : String) :
    QuotientFree (Expr.pass target e).value := by
  induction e with
  | number _ => trivial
  | monomial m =>
    have hfree : QuotientFree (.monomial m) := trivial
    exact hfree.step target
  | negate e ih =>
    have hfree : QuotientFree (.negate (Expr.pass target e).value) := ih he
    exact hfree.step target
  | binary op l r ihl ihr =>
    obtain ⟨hop, hl, hr⟩ := he
    have hfree : QuotientFree
        (.binary op (Expr.pass target l).value (Expr.pass target r).value) :=
      ⟨joins_pass target hop, ihl hl, ihr hr⟩
    exact hfree.step target
  | call _ _ | constant _ _ => exact he.elim

end
end Expr

/-- A monomial with the exponent zero has the coefficient zero or one, which is the number that the
rules make of it. -/
def Monomial.Unitary {K : Type} [Zero K] [One K] (m : Monomial (Exact K)) : Prop :=
  m.exponent.get? = some 0 → m.coefficient.get? = some 0 ∨ m.coefficient.get? = some 1

namespace Interpretation

open SymbolicAlgebra.Expr (Contracts QuotientFree Joins Visits contract? literal)

variable {K : Type} [Field K] [LinearOrder K] [FloorRing K]

/-- The values of the variables alone: no function has a meaning, and a remainder has the sign of
its dividend. -/
def ofAssignment (f : String → K) : Interpretation K := ⟨f, fun _ _ => none, Exact.remainder?⟩

variable [PartialPower K] {I : Interpretation K} {e e' t r : Expr (Exact K)} {v : K}
variable {target : String} {ceiling : Nat}

/-! ## One node -/

/-- A rule that fires at a node that allows it keeps the value. -/
theorem value_step (target : String) (hallows : I.Allows e) (hv : I.value e = some v) :
    I.value (Traced.ofStep (contract? target e) e).value = some v := by
  cases hc : contract? target e with
  | none => exact hv
  | some step => exact value_of_contracts (Expr.contracts_of_contract? hc) hallows hv

theorem value_pass_monomial {m : Monomial (Exact K)} (hm : m.Unitary)
    (hv : I.value (.monomial m) = some v) :
    I.value (Expr.pass target (.monomial m)).value = some v := by
  by_cases hzero : m.coefficient.get? = some 0
  · -- the rule for the coefficient comes first
    have hc : Scalar.eqv m.coefficient (Scalar.natural 0) = true := by
      rw [Exact.eqv_natural, hzero, Nat.cast_zero]
    rw [Expr.pass, Expr.monomialRule?, if_pos hc]
    exact value_zero_monomial hc hv
  · have hallows : I.Allows (.monomial m) := fun hexp => (hm hexp).resolve_left hzero
    exact value_step target hallows hv

/-- A folding keeps the value. -/
theorem value_fold (hrem : I.remainder? = Exact.remainder?) (h : Expr.fold e = .ok e')
    (he : QuotientFree e) (hv : I.value e = some v) : I.value e' = some v := by
  induction e generalizing e' v with
  | number x | monomial m =>
    cases h
    exact hv
  | constant _ _ | call _ _ => exact he.elim
  | negate e ih =>
    obtain ⟨a, ha, rfl⟩ := Expr.fold_negate_eq_ok.mp h
    obtain ⟨x, hx, rfl⟩ := value_negate.mp hv
    exact value_negate.mpr ⟨x, ih ha he hx, rfl⟩
  | binary op l r ihl ihr =>
    obtain ⟨a, ha, b, hb, hab⟩ := Expr.fold_binary_eq_ok.mp h
    obtain ⟨-, hl, hr⟩ := he
    obtain ⟨x, y, hx, hy, hxy⟩ := value_binary.mp hv
    have hx' := ihl ha hl hx
    have hy' := ihr hb hr hy
    rcases Expr.foldBinary_eq_ok hab with hc | ⟨rfl, -⟩
    · cases hc with
      | literals hz _ =>
        rw [value_number, Exact.result?_get? (fun _ => hrem) hz]
        exact Exact.zip_get?_eq_some.mpr ⟨x, y, by simpa using hx', by simpa using hy', hxy⟩
    · exact value_binary.mpr ⟨x, y, hx', hy', hxy⟩

variable [IsStrictOrderedRing K]

/-- What is no monomial allows every rule. -/
theorem allows_of_quotientFree (hrem : I.remainder? = Exact.remainder?) (he : QuotientFree e)
    (hm : e.isMonomial = false) : I.Allows e := by
  unfold Allows
  split
  · cases he.1
  · intro a b c h
    rw [hrem] at h ⊢
    rw [Exact.remainder?_neg, h]
    rfl
  · cases hm
  · trivial

/-- A pass keeps the value if every monomial with the exponent zero is the number it becomes. -/
theorem value_pass (hrem : I.remainder? = Exact.remainder?) (target : String)
    (hm : ∀ m, .monomial m ∈ e.subtrees → m.Unitary) (he : QuotientFree e)
    (hv : I.value e = some v) : I.value (Expr.pass target e).value = some v := by
  induction e generalizing v with
  | number x => exact hv
  | constant _ _ | call _ _ => exact he.elim
  | monomial m => exact value_pass_monomial (hm m (Expr.self_mem_subtrees _)) hv
  | negate e ih =>
    obtain ⟨a, ha, rfl⟩ := value_negate.mp hv
    have ha' := ih (fun m hmem => hm m (by simp [Expr.subtrees, hmem])) he ha
    have hinner : QuotientFree e := he
    have hfree : QuotientFree (.negate (Expr.pass target e).value) := hinner.pass target
    exact value_step target (allows_of_quotientFree hrem hfree rfl) (value_negate.mpr ⟨a, ha', rfl⟩)
  | binary op l r ihl ihr =>
    obtain ⟨hop, hl, hr⟩ := he
    obtain ⟨a, b, ha, hb, hab⟩ := value_binary.mp hv
    have ha' := ihl (fun m hmem => hm m (by simp [Expr.subtrees, hmem])) hl ha
    have hb' := ihr (fun m hmem => hm m (by simp [Expr.subtrees, hmem])) hr hb
    have hfree : QuotientFree
        (.binary op (Expr.pass target l).value (Expr.pass target r).value) :=
      ⟨Expr.joins_pass target hop, hl.pass target, hr.pass target⟩
    exact value_step target (allows_of_quotientFree hrem hfree rfl)
      (value_binary.mpr ⟨a, b, ha', hb', hab⟩)

/-! ## Whole runs -/

/-- The simplifier keeps the value if at the start of every round each monomial with the exponent
zero is the number it becomes. -/
theorem simplify_quotientFree (hrem : I.remainder? = Exact.remainder?) (ht : QuotientFree t)
    (hm : ∀ s m, Visits target t s → .monomial m ∈ s.subtrees → m.Unitary)
    (hv : I.value t = some v) (h : (Expr.simplify target ceiling t).outcome = .ok r) :
    I.value r = some v := by
  have hround : ∀ a b, Visits target t a ∧ QuotientFree a ∧ I.value a = some v →
      Expr.fold (Expr.pass target a).value = .ok b →
        Visits target t b ∧ QuotientFree b ∧ I.value b = some v := by
    intro a b hab hfold
    obtain ⟨hvisits, hfree, hva⟩ := hab
    have hvp := value_pass hrem target (fun m => hm a m hvisits) hfree hva
    have hfreep := hfree.pass target
    exact ⟨hvisits.next hfold, hfreep.fold hfold, value_fold hrem hfold hfreep hvp⟩
  exact (Expr.simplify_induction hround ⟨.start, ht, hv⟩ h).1.2.2

end Interpretation
end SymbolicAlgebra
