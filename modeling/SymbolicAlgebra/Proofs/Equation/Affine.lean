import SymbolicAlgebra.Proofs.Equation.Settle
import SymbolicAlgebra.Proofs.Rewrite.Affine

/-!
# Isolating a target that occurs linearly

Two monomials of the target in an affine tree have the same exponent, so under
a sum or a difference they are combined: no equation of a run crosses, and the
loop stops. Where it stops the target need not be alone, for a transposition
only looks at the operands of a sum or a difference that is a whole side. A
target that occurs once and is in reach stays in reach until it is alone.

Results:
* `Affine.settles`: the loop stops.
* `Single.follows`: a target that is in reach stays in reach.
* `Affine.isolate`: what isolating gives, and when it is the target alone.
-/
namespace SymbolicAlgebra

open Relation
open SymbolicAlgebra.Expr (SimplifiesTo Contracts contract?)

variable {α : Type} [Scalar α] {target : String}

/-! ## Gathering a target -/

namespace Expr

/-- A rule that applies to a sum or a difference of a tree without the target and a target takes
the tree away. -/
theorem eq_of_contracts_gathered [LawfulSign α] {op : Operator} {l e' : Expr α} {m : Monomial α}
    (hop : op.isAdditive = true) (hl : l.targets target = 0) (hm : m.var = target)
    (h : Contracts target (.binary op l (.monomial m)) e') :
    e' = .monomial m ∨ e' = .negate (.monomial m) := by
  have hone : (monomial m).targets target = 1 := by rw [targets, if_pos hm]
  cases h with
  | zeroPlus _ => exact .inl rfl
  | zeroMinus _ => exact .inr rfl
  | plusZero hr | minusZero hr => cases hr
  | plusSelf hs =>
    have heq := (measures_eq_of_same target (Bool.and_eq_true_iff.mp hs).1).2.1
    omega
  | minusSelf hs =>
    have heq := (measures_eq_of_same target hs).2.1
    omega
  | @merged op a b k hk =>
    -- monomials of one variable are combined, but the left one is not of the target
    have hvar : a.var = m.var := by
      by_contra hne
      simp [Monomial.merge?, hne] at hk
    rw [targets, if_pos (hvar.trans hm)] at hl
    cases hl
  | hoistedRight _ _ hne | hoistedSum _ _ hne | hoistedDifference _ _ hne => exact absurd hm hne
  | _ => cases hop

variable [LawfulSign α]

/-- Gathered to a side without it, the target can be taken out again. -/
theorem SimplifiesTo.of_gathered {op : Operator} {l r : Expr α} {m : Monomial α}
    (h : SimplifiesTo target (.binary op l (.monomial m)) r) (hop : op.isAdditive = true)
    (hl : Normal target l) (hfree : l.targets target = 0) (hm : m.var = target)
    (hn : Normal target (.monomial m)) :
    r = .binary op l (.monomial m) ∨ r = .monomial m ∨ r = .negate (.monomial m) := by
  have hpass : pass target (.binary op l (.monomial m)) =
      Traced.ofStep (contract? target (.binary op l (.monomial m))) (.binary op l (.monomial m)) :=
    pass_binary_of_normal hl hn
  cases hc : contract? target (.binary op l (.monomial m)) with
  | none => exact .inl (h.eq_of_normal (hl.binary hn hc (by cases l <;> rfl)))
  | some step =>
    obtain ⟨ev, e'⟩ := step
    rw [hc] at hpass
    right
    rcases eq_of_contracts_gathered hop hfree hm (contracts_of_contract? hc) with rfl | rfl
    · exact .inl (h.unique (.of_round (by rw [hpass]; rfl) hn))
    · exact .inr (h.unique (.of_round (by rw [hpass]; rfl) (hn.negate rfl)))

end Expr

namespace Equation

variable {e s s' : Equation α} {t : Transposition}

/-! ## Affine equations -/

/-- The target occurs linearly on both sides. -/
structure Affine (target : String) (e : Equation α) : Prop where
  lhs : e.lhs.Affine target
  rhs : e.rhs.Affine target

theorem Moves.affine (h : Moves target t e s) (he : Affine target e) : Affine target s := by
  obtain ⟨hl, hr⟩ := he
  cases h with
  | leftAugend _ | leftMinuend _ => exact ⟨hl.1, hr, hl.2⟩
  | leftAddend _ | leftSubtrahend _ => exact ⟨hl.2, hr, hl.1⟩
  | rightAugend _ | rightMinuend _ => exact ⟨⟨hl, hr.1⟩, hr.2⟩
  | rightAddend _ | rightSubtrahend _ => exact ⟨⟨hl, hr.2⟩, hr.1⟩
  | negated _ => exact ⟨hl, hr⟩
  | scaled _ => exact ⟨hl, hr, rfl⟩

section
variable [LawfulSign α]

theorem NormalizesTo.affine (h : NormalizesTo target e s) (he : Affine target e) :
    Affine target s :=
  ⟨h.lhs.affine he.lhs, h.rhs.affine he.rhs⟩

/-- A step keeps an equation affine. -/
theorem Follows.affine (h : Follows target s s') (hs : Affine target s) : Affine target s' := by
  rcases transpose_value target s with heq | ⟨t, hmoves⟩
  · exact NormalizesTo.affine h (heq.symm ▸ hs)
  · exact NormalizesTo.affine h (hmoves.affine hs)

variable [LawfulOne α]

/-- Like monomials would have been combined. -/
theorem Affine.not_crosses (h : Affine target s) (hs : Normal target s) : ¬ Crosses target s := by
  intro hcross
  obtain ⟨op, m, n, hop, hm, hn, hlhs⟩ := hcross
  have haff := h.lhs
  have hnormal := hs.lhs
  rw [hlhs] at haff hnormal
  obtain ⟨hxm, hxn⟩ := (Expr.affine_additive hop).mp haff
  have hlike : m.like n = true := by
    rw [Monomial.like, hxm hm, hxn hn, eqv_one_one, hm, hn, beq_self_eq_true]
    rfl
  exact Expr.not_redex hnormal.pass_eq hnormal.fold_eq (.likeTerms hop hlike)

/-- The loop stops on an affine equation. -/
theorem Affine.settles (h : Affine target s) (hs : Normal target s) (hfree : EqualityFree s) :
    Settles target s := by
  refine Quiet.settles ⟨hs, hfree, fun s' hreach => ?_⟩
  have hboth : Affine target s' ∧ Normal target s' := by
    induction hreach with
    | refl => exact ⟨h, hs⟩
    | tail _ hstep ih => exact ⟨hstep.affine ih.1, hstep.normal⟩
  exact hboth.1.not_crosses hboth.2

end

/-! ## A target that occurs once -/

/-- Some transposition applies. -/
def InReach (target : String) (s : Equation α) : Prop := ∃ t a, Moves target t s a

theorem inReach_of_monomial {m : Monomial α} (hlhs : s.lhs = .monomial m) (hm : m.var = target) :
    InReach target s := by
  obtain ⟨lhs, rhs⟩ := s
  obtain rfl : lhs = .monomial m := hlhs
  exact ⟨_, _, .scaled hm⟩

/-- What is in reach occurs. -/
theorem InReach.targets_pos (h : InReach target s) : 0 < s.targets target := by
  obtain ⟨t, a, hmoves⟩ := h
  rw [targets, Nat.pos_iff_ne_zero]
  cases hmoves with
  | leftAugend ha | leftMinuend ha | rightAugend ha | rightMinuend ha =>
    have := Expr.not_free_of_isTarget ha
    simp only [Expr.targets]; omega
  | leftAddend hb | leftSubtrahend hb | rightAddend hb | rightSubtrahend hb =>
    have := Expr.not_free_of_isTarget hb
    simp only [Expr.targets]; omega
  | negated ha =>
    have := Expr.not_free_of_isTarget ha
    simp only [Expr.targets]; omega
  | scaled hm => simp only [Expr.targets, if_pos hm]; omega

/-- The target occurs once, and where a transposition looks for it. -/
structure Single (target : String) (s : Equation α) : Prop where
  targets_eq : s.targets target = 1
  inReach : InReach target s

/-- The target stands alone on the left, and nowhere on the right. -/
structure Isolates (target : String) (s : Equation α) : Prop where
  lhs : s.lhs = .monomial ⟨Scalar.natural 1, target, Scalar.natural 1⟩
  rhs : s.rhs.targets target = 0

/-- The target occurs on the right, or inside the left side. -/
def Buried (target : String) (s : Equation α) : Prop :=
  0 < s.rhs.targets target ∨ s.lhs.isMonomial = false ∧ 0 < s.lhs.targets target

/-- At rest, a target that stands alone on the left has the coefficient and the exponent one. -/
theorem AtRest.lhs_eq {m : Monomial α} {rhs : Expr α} (h : AtRest target ⟨.monomial m, rhs⟩)
    (haff : Affine target ⟨.monomial m, rhs⟩) (hm : m.var = target) :
    m = ⟨Scalar.natural 1, target, Scalar.natural 1⟩ := by
  have hcoefficient := h.coefficient_eq_one m rfl hm
  have hexp := haff.lhs hm
  obtain ⟨c, v, x⟩ := m
  obtain rfl : v = target := hm
  obtain rfl : c = Scalar.natural 1 := hcoefficient
  obtain rfl : x = Scalar.natural 1 := hexp
  rfl

/-- A target that occurs in an equation at rest is isolated or buried. -/
theorem AtRest.isolates_or_buried (h : AtRest target s) (haff : Affine target s)
    (hpos : 0 < s.targets target) : Isolates target s ∨ Buried target s := by
  by_cases hright : 0 < s.rhs.targets target
  · exact .inr (.inl hright)
  have hleft : 0 < s.lhs.targets target := by
    rw [targets] at hpos
    omega
  obtain ⟨lhs, rhs⟩ := s
  cases lhs with
  | monomial m =>
    have hm : m.var = target := by
      by_contra hne
      simp [Expr.targets, hne] at hleft
    exact .inl ⟨congrArg _ (h.lhs_eq haff hm), Nat.eq_zero_of_not_pos hright⟩
  | _ => exact .inr (.inr ⟨rfl, hleft⟩)

/-- At rest, a single target is isolated. -/
theorem Single.isolates (h : Single target s) (hrest : AtRest target s) (haff : Affine target s) :
    Isolates target s := by
  obtain ⟨hone, t, a, hmoves⟩ := h
  obtain rfl := hrest.eq_scaled t a hmoves
  cases hmoves with
  | @scaled m rhs hm =>
    refine ⟨congrArg _ (hrest.lhs_eq haff hm), ?_⟩
    show rhs.targets target = 0
    simp only [targets, Expr.targets, if_pos hm] at hone
    omega

variable [LawfulSign α] [LawfulOne α]

/-- A step keeps a single target in reach. -/
theorem Single.follows (h : Single target s) (hs : Normal target s) (hf : Follows target s s') :
    Single target s' := by
  have hreach : InReach target s' := by
    rcases hf.shift hs with ⟨rfl, -⟩ | ⟨t, a, -, hshift⟩
    · exact h.inReach
    cases hshift with
    | leaves hm _ hl => exact inReach_of_monomial hl hm
    | scales _ hm _ hl _ => exact inReach_of_monomial hl hm
    | @gathers op m hop hm hn hl hr =>
      have hone := h.targets_eq
      rw [targets] at hone
      rcases hl.of_gathered hop hs.lhs (by omega) hm hn with heq | heq | heq
      · have hmt : (Expr.monomial m).isTarget target = true := beq_iff_eq.mpr hm
        obtain ⟨lhs', rhs'⟩ := s'
        obtain rfl := heq
        cases op with
        | add => exact ⟨_, _, .leftAddend hmt⟩
        | sub => exact ⟨_, _, .leftSubtrahend hmt⟩
        | _ => cases hop
      · exact inReach_of_monomial heq hm
      · obtain ⟨lhs', rhs'⟩ := s'
        obtain rfl := heq
        exact ⟨_, _, .negated (beq_iff_eq.mpr hm)⟩
  have hle := hf.targets_le
  have hpos := hreach.targets_pos
  rw [h.targets_eq] at hle
  exact ⟨by omega, hreach⟩

/-! ## Whole runs -/

/-- From some ceiling on, isolating gives one and the same equation, where no transposition has
anything left to do. A single target is isolated there. -/
theorem Affine.isolate (h : Affine target e) (hfree : EqualityFree e)
    (hs : NormalizesTo target e s) : ∃ r, Normal target r ∧ Affine target r ∧ AtRest target r ∧
      (Single target s → Isolates target r) ∧
      ∃ n, ∀ ceiling, n ≤ ceiling → (Equation.isolate target ceiling e).outcome = .ok r := by
  have haff := hs.affine h
  have hsfree := hs.equalityFree hfree
  obtain ⟨r, hr⟩ := haff.settles hs.normal hsfree
  obtain ⟨hreach, hrest⟩ := hr.reaches hs.normal
  have hkept : Normal target r ∧ Affine target r ∧ (Single target s → Single target r) := by
    clear hr hrest
    induction hreach with
    | refl => exact ⟨hs.normal, haff, id⟩
    | tail _ hstep ih =>
      obtain ⟨hnormal, haff, hsingle⟩ := ih
      exact ⟨hstep.normal, hstep.affine haff, fun h => (hsingle h).follows hnormal hstep⟩
  obtain ⟨hnormal, haff, hsingle⟩ := hkept
  exact ⟨r, hnormal, haff, hrest, fun h => (hsingle h).isolates hrest haff, hr.isolate hs⟩

end Equation
end SymbolicAlgebra
