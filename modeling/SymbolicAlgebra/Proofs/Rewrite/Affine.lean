import SymbolicAlgebra.Proofs.Rewrite.Limit

/-!
# Trees in which the target occurs linearly

In an affine tree no product has the target in both factors and no divisor,
exponent or operand of a call or of a remainder has it at all, and where it
occurs its exponent is one. What is free of the target may be anything.

Results:
* `affine_of_free`: a tree without the target is affine.
* `Contracts.affine`: a rule keeps a tree affine.
* `SimplifiesTo.affine`: so does the simplifier.
-/
namespace SymbolicAlgebra.Expr

variable {α : Type} [Scalar α] {target : String} {e e' l r : Expr α}

/-- The target occurs linearly. -/
def Affine (target : String) : Expr α → Prop
  | .monomial m => m.var = target → m.exponent = Scalar.natural 1
  | .negate e => Affine target e
  | .binary .add l r => Affine target l ∧ Affine target r
  | .binary .sub l r => Affine target l ∧ Affine target r
  | .binary .mul l r =>
    l.targets target = 0 ∧ Affine target r ∨ Affine target l ∧ r.targets target = 0
  | .binary .div l r => Affine target l ∧ r.targets target = 0
  | e => e.targets target = 0

theorem affine_negate : Affine target (.negate e) ↔ Affine target e := Iff.rfl

theorem affine_additive {op : Operator} (hop : op.isAdditive = true) :
    Affine target (.binary op l r) ↔ Affine target l ∧ Affine target r := by
  cases op with
  | add | sub => exact Iff.rfl
  | _ => cases hop

/-- A tree without the target is affine. -/
theorem affine_of_free (h : e.targets target = 0) : Affine target e := by
  induction e with
  | number x | constant name x | call name args ih => exact h
  | monomial m =>
    intro hm
    rw [targets, if_pos hm] at h
    cases h
  | negate e ih => exact ih h
  | binary op l r ihl ihr =>
    obtain ⟨hl, hr⟩ : l.targets target = 0 ∧ r.targets target = 0 := Nat.add_eq_zero_iff.mp h
    cases op with
    | add | sub => exact ⟨ihl hl, ihr hr⟩
    | mul => exact .inl ⟨hl, ihr hr⟩
    | div => exact ⟨ihl hl, hr⟩
    | mod | pow | equals => exact h

/-! ## One step -/

omit [Scalar α] in
theorem not_free_of_isTarget (h : e.isTarget target = true) : e.targets target ≠ 0 := by
  obtain ⟨m, rfl, hm⟩ := monomial_of_isTarget h
  rw [targets, if_pos hm]
  exact one_ne_zero

theorem affine_timesOne (h : Affine target (.binary .mul l r)) :
    Affine target l ∧ Affine target r := by
  rcases h with ⟨hl, hr⟩ | ⟨hl, hr⟩
  · exact ⟨affine_of_free hl, hr⟩
  · exact ⟨hl, affine_of_free hr⟩

/-- Operands of a power are free of the target. -/
theorem free_of_affine_pow (h : Affine target (.binary .pow l r)) :
    l.targets target = 0 ∧ r.targets target = 0 := Nat.add_eq_zero_iff.mp h

theorem affine_pow (hl : l.targets target = 0) (hr : r.targets target = 0) :
    Affine target (.binary .pow l r) := Nat.add_eq_zero_iff.mpr ⟨hl, hr⟩

theorem affine_merged {op : Operator} {m n k : Monomial α} (h : m.merge? op n = some k)
    (hmn : Affine target (.binary op (.monomial m) (.monomial n))) :
    Affine target (.monomial k) := by
  unfold Monomial.merge? at h
  split at h; · cases h
  rename_i hvar
  obtain hvar : m.var = n.var := by simpa using hvar
  split at h
  · split at h <;> cases h
    exact hmn.1
  · split at h <;> cases h
    exact hmn.1
  · -- a product of two monomials of the target is not affine
    cases h
    intro hm
    rcases hmn with ⟨hfree, -⟩ | ⟨-, hfree⟩
    · rw [targets, if_pos hm] at hfree
      cases hfree
    · rw [targets, if_pos (hvar.symm.trans hm)] at hfree
      cases hfree
  · cases h

theorem affine_hoistedRight {op inner : Operator} {a b c : Expr α}
    (hpast : op.commutesPast inner = true) (hb : b.isTarget target = true)
    (hc : c.targets target = 0) (h : Affine target (.binary op (.binary inner a b) c)) :
    Affine target (.binary inner (.binary op a c) b) := by
  have hfree := not_free_of_isTarget hb
  rcases Bool.or_eq_true_iff.mp hpast with hpast | hpast
  · obtain ⟨hop, hin⟩ := Bool.and_eq_true_iff.mp hpast
    obtain ⟨hab, hc⟩ := (affine_additive hop).mp h
    obtain ⟨ha, hb⟩ := (affine_additive hin).mp hab
    exact (affine_additive hin).mpr ⟨(affine_additive hop).mpr ⟨ha, hc⟩, hb⟩
  · obtain ⟨hop, hin⟩ := Bool.and_eq_true_iff.mp hpast
    have hab : Affine target (.binary inner a b) := by
      cases op with
      | mul => exact (affine_timesOne h).1
      | div => exact h.1
      | _ => cases hop
    -- the target is the second operand, so the operation is a product and the first one is free
    cases inner with
    | mul =>
      obtain ⟨ha, hb⟩ := hab.resolve_right fun h => hfree h.2
      refine .inl ⟨?_, hb⟩
      show a.targets target + c.targets target = 0
      omega
    | div => exact absurd hab.2 hfree
    | _ => cases hin

theorem affine_hoistedProduct {inner : Operator} {a b c : Expr α}
    (hin : inner.isMultiplicative = true) (ha : a.isTarget target = true)
    (hc : c.targets target = 0) (h : Affine target (.binary .mul (.binary inner a b) c)) :
    Affine target (.binary .mul (.binary inner c b) a) := by
  have hfree := not_free_of_isTarget ha
  obtain ⟨hab, -⟩ := affine_timesOne h
  have hparts : Affine target a ∧ b.targets target = 0 := by
    cases inner with
    | mul => exact hab.resolve_left fun h => hfree h.1
    | div => exact hab
    | _ => cases hin
  refine .inl ⟨?_, hparts.1⟩
  show c.targets target + b.targets target = 0
  omega

/-- A rule keeps a tree affine. -/
theorem Contracts.affine [LawfulSign α] (h : Contracts target e e') (he : Affine target e) :
    Affine target e' := by
  cases h with
  | zeroPlus _ => exact he.2
  | plusZero _ | minusZero _ => exact he.1
  | plusSelf _ => exact .inl ⟨rfl, he.1⟩
  | plusNegated | minusNegated => exact he
  | zeroMinus _ => exact he.2
  | minusSelf _ | zeroTimes _ | timesZero _ | overSelf _ | powerZero _ | zeroCoefficient _
  | zeroExponent _ => exact affine_of_free rfl
  | oneTimes _ => exact (affine_timesOne he).2
  | timesOne _ => exact (affine_timesOne he).1
  | timesSelf hs =>
    have hlr := (measures_eq_of_same target (Bool.and_eq_true_iff.mp hs).1).2.1
    refine affine_pow ?_ rfl
    rcases he with ⟨hl, -⟩ | ⟨-, hr⟩
    · exact hl
    · exact hlr.trans hr
  | timesPower hs _ =>
    obtain ⟨hl, hr⟩ := affine_timesOne he
    obtain ⟨ha, hb⟩ := free_of_affine_pow hl
    obtain ⟨-, hc⟩ := free_of_affine_pow hr
    exact affine_pow ha (Nat.add_eq_zero_iff.mpr ⟨hb, hc⟩)
  | timesSum hop =>
    obtain ⟨hb, hc⟩ := (affine_additive hop).mp (affine_timesOne he).2
    exact (affine_additive hop).mpr ⟨.inl ⟨rfl, hb⟩, .inl ⟨rfl, hc⟩⟩
  | timesMonomial => exact (affine_timesOne he).2
  | overOne _ | monomialOver => exact he.1
  | powerOne _ => exact affine_of_free (free_of_affine_pow he).1
  | powerNegated =>
    obtain ⟨hl, -⟩ := free_of_affine_pow he
    exact affine_of_free (Nat.add_eq_zero_iff.mpr ⟨rfl, Nat.add_eq_zero_iff.mpr ⟨hl, rfl⟩⟩)
  | negativeCoefficient _ | negatedNegation => exact he
  | negatedSum hop =>
    obtain ⟨hl, hr⟩ := (affine_additive hop).mp (affine_negate.mp he)
    exact (affine_additive hop).mpr ⟨hl, hr⟩
  | @negatedProduct op l r hop =>
    cases op with
    | mul | div | mod => exact he
    | _ => rcases hop with hop | hop <;> cases hop
  | merged hm => exact affine_merged hm he
  | hoistedRight hpast hb hm => exact affine_hoistedRight hpast hb (if_neg hm) he
  | hoistedSum hin _ _ =>
    obtain ⟨hab, hm⟩ := he
    obtain ⟨ha, hb⟩ := (affine_additive hin).mp hab
    exact ⟨(affine_additive hin).mpr ⟨hm, hb⟩, ha⟩
  | hoistedDifference hin _ _ =>
    obtain ⟨hab, hm⟩ := he
    obtain ⟨ha, hb⟩ := (affine_additive hin).mp hab
    exact ⟨(affine_additive hin).mpr ⟨hm, hb⟩, ha⟩
  | hoistedProduct hin ha hm => exact affine_hoistedProduct hin ha (if_neg hm) he

/-! ## Whole runs -/

/-- What keeps trees affine at the root, and makes no target, keeps them affine everywhere. -/
theorem Affine.within {R : Expr α → Expr α → Prop}
    (hR : ∀ a b, R a b → Affine target a → Affine target b)
    (htargets : ∀ a b, R a b → b.targets target ≤ a.targets target) (h : Within R e e')
    (he : Affine target e) : Affine target e' := by
  have hfree : ∀ {a b}, Within R a b → a.targets target = 0 → b.targets target = 0 := by
    intro a b hab ha
    rw [targets_eq_count] at ha ⊢
    have hle := (marks_isTarget target).within (fun a b hab => by
      rw [← targets_eq_count, ← targets_eq_count]; exact htargets a b hab) hab
    omega
  induction h with
  | root h => exact hR _ _ h he
  | negate _ ih => exact ih he
  | @left op a b r hab ih =>
    cases op with
    | add | sub => exact ⟨ih he.1, he.2⟩
    | mul => exact he.imp (fun h => ⟨hfree hab h.1, h.2⟩) fun h => ⟨ih h.1, h.2⟩
    | div => exact ⟨ih he.1, he.2⟩
    | mod | pow | equals => exact hfree (.left hab) he
  | @right op l a b hab ih =>
    cases op with
    | add | sub => exact ⟨he.1, ih he.2⟩
    | mul => exact he.imp (fun h => ⟨h.1, ih h.2⟩) fun h => ⟨h.1, hfree hab h.2⟩
    | div => exact ⟨he.1, hfree hab he.2⟩
    | mod | pow | equals => exact hfree (.right hab) he
  | argument hab _ => exact hfree (.argument hab) he

/-- What keeps trees affine in one step keeps them affine in a sequence of steps. -/
theorem Affine.steps {R : Expr α → Expr α → Prop}
    (hR : ∀ a b, R a b → Affine target a → Affine target b)
    (h : Relation.ReflTransGen R e e') (he : Affine target e) : Affine target e' := by
  induction h with
  | refl => exact he
  | tail _ hstep ih => exact hR _ _ hstep ih

theorem affine_fold (h : fold e = .ok e') (he : Affine target e) : Affine target e' := by
  refine Affine.steps (fun a b hab => ?_) (fold_collapses h) he
  refine Affine.within (fun a b hab _ => ?_) (fun a b hab => ?_) hab
  · cases hab; exact affine_of_free rfl
  · cases hab; exact Nat.zero_le _

variable [LawfulSign α]

theorem affine_pass (he : Affine target e) : Affine target (pass target e).value := by
  rcases pass_progress target e with hp | ⟨-, hsteps⟩
  · rw [hp]; exact he
  · refine Affine.steps (fun a b hab => ?_) hsteps.to_reflTransGen he
    refine Affine.within (fun _ _ hc ha => Contracts.affine hc ha) (fun a b hab => ?_) hab
    rw [targets_eq_count, targets_eq_count]
    exact (marks_isTarget target).contracts hab

/-- The simplifier keeps a tree affine. -/
theorem SimplifiesTo.affine {r : Expr α} (h : SimplifiesTo target e r) (he : Affine target e) :
    Affine target r :=
  h.induction (fun _ _ ha hb => affine_fold hb (affine_pass ha)) he

end SymbolicAlgebra.Expr
