import SymbolicAlgebra.Proofs.Equation.Limit

/-!
# When isolating a variable stops

A transposition leaves one monomial of the target alone on the left, gathers
one from the right at the end of the left side, or divides by the coefficient
of a left side that is such a monomial. Gathering leaves fewer target monomials
on the right, and dividing does so at most once in a row, so nothing undoes a
step but this: a monomial is gathered to another one, the two are not combined,
and one of them is sent back. Then the left side is a sum or a difference of
two monomials of the target, and the equation `Crosses`.

Results:
* `Follows.shift`: what one step of the loop does, in terms of both sides.
* `Quiet.settles`: the loop stops if none of its equations crosses.
* `SettlesTo.reaches`: it stops at an equation of the run at which no
  transposition has anything left to do.
* `isolate_settles_or_crosses`: the loop stops and crosses finitely often, or it
  never stops and crosses again and again.
-/
namespace SymbolicAlgebra

open Relation
open SymbolicAlgebra.Expr (SimplifiesTo Contracts contract? targets_monomial targets_binary)

variable {α : Type} [Scalar α] {target : String}

/-! ## Sides that a step makes -/

namespace Expr

/-- A rule that applies to a sum or a difference of two monomials leaves one of them at most. -/
theorem targets_le_one_of_contracts {op : Operator} {m n : Monomial α} {e' : Expr α}
    (hop : op.isAdditive = true)
    (h : Contracts target (.binary op (.monomial m) (.monomial n)) e') :
    e'.targets target ≤ 1 := by
  cases h with
  | zeroPlus hl | plusZero hl | minusZero hl | zeroMinus hl => cases hl
  | plusSelf hs => simp [repeats, isMonomial] at hs
  | minusSelf _ => exact Nat.zero_le 1
  | merged _ => rw [targets_monomial]; split <;> omega
  | _ => cases hop

variable [LawfulSign α]

/-- A sum or a difference of two monomials is its own result, unless they are combined. -/
theorem SimplifiesTo.of_monomials {op : Operator} {m n : Monomial α} {r : Expr α}
    (h : SimplifiesTo target (.binary op (.monomial m) (.monomial n)) r)
    (hop : op.isAdditive = true) (hm : Normal target (.monomial m))
    (hn : Normal target (.monomial n)) :
    r = .binary op (.monomial m) (.monomial n) ∨ r.targets target ≤ 1 := by
  refine h.induction (p := fun s => s = .binary op (.monomial m) (.monomial n) ∨
    s.targets target ≤ 1) (fun a b ha hb => ?_) (.inl rfl)
  rcases ha with rfl | ha
  · rw [pass_binary_of_normal hm hn] at hb
    cases hc : contract? target (.binary op (.monomial m) (.monomial n)) with
    | none => rw [hc] at hb; cases hb; exact .inl rfl
    | some step =>
      rw [hc] at hb
      have hone := targets_le_one_of_contracts hop (contracts_of_contract? hc)
      exact .inr ((targets_fold_le hb).trans hone)
  · exact .inr ((targets_fold_le hb).trans ((targets_pass_le target target a).trans ha))

omit [LawfulSign α] in
/-- A round takes a division by one away. -/
theorem round_div_one {x : α} {e : Expr α} (he : Normal target e)
    (hx : Scalar.eqv x (Scalar.natural 1) = true) :
    fold (pass target (.binary .div e (.number x))).value = .ok e := by
  have hc : contract? target (.binary .div e (.number x)) = some (.fired .overOne, e) := by
    simp [contract?, binaryStep?, binaryRule?, quotientRule?, isLiteral, hx, fired]
  rw [pass_binary_of_normal he Normal.number, hc]
  exact he.fold_eq

/-- Dividing by one changes nothing. -/
theorem simplifiesTo_div_one {x : α} {e : Expr α} (he : Normal target e)
    (hx : Scalar.eqv x (Scalar.natural 1) = true) :
    SimplifiesTo target (.binary .div e (.number x)) e := .of_round (round_div_one he hx) he

end Expr

namespace Equation

/-! ## One step -/

/-- The count of monomials of the target on both sides. -/
def targets (target : String) (s : Equation α) : Nat :=
  s.lhs.targets target + s.rhs.targets target

/-- The left side is a sum or a difference of two monomials of the target. -/
def Crosses (target : String) (s : Equation α) : Prop :=
  ∃ op m n, op.isAdditive = true ∧ m.var = target ∧ n.var = target ∧
    s.lhs = .binary op (.monomial m) (.monomial n)

/-- What a step with a transposition does to the two sides. -/
inductive Shift (target : String) (t : Transposition) (s s' : Equation α) : Prop
  /-- The left side, an operation or a negation, becomes a monomial of the target. -/
  | leaves {m} : m.var = target → s.lhs.isMonomial = false → s'.lhs = .monomial m →
      Shift target t s s'
  /-- A monomial of the target goes from the right side to the left one. -/
  | gathers {op m} : op.isAdditive = true → m.var = target → (Expr.monomial m).Normal target →
      SimplifiesTo target (.binary op s.lhs (.monomial m)) s'.lhs →
      s'.rhs.targets target < s.rhs.targets target → Shift target t s s'
  /-- The right side is divided by the coefficient of the left one. -/
  | scales {m} : t = .scaled → m.var = target → s.lhs = .monomial m →
      s'.lhs = .monomial { m with coefficient := Scalar.natural 1 } →
      SimplifiesTo target (.binary .div s.rhs (.number m.coefficient)) s'.rhs →
      Shift target t s s'

variable {s s' : Equation α} {t : Transposition}

section
variable [LawfulSign α]

/-- A target that is left alone on the left has been there as it is. -/
theorem Shift.of_leaves {a : Expr α} (ha : a.isTarget target = true) (hn : a.Normal target)
    (hl : s.lhs.isMonomial = false) (h : SimplifiesTo target a s'.lhs) : Shift target t s s' := by
  obtain ⟨m, rfl, hm⟩ := Expr.monomial_of_isTarget ha
  exact .leaves hm hl (h.eq_of_normal hn)

omit [LawfulSign α] in
/-- A target that is gathered is counted on the right no more. -/
theorem Shift.of_gathers {op : Operator} {a b : Expr α} (hop : op.isAdditive = true)
    (ha : a.isTarget target = true) (hn : a.Normal target)
    (hl : SimplifiesTo target (.binary op s.lhs a) s'.lhs) (hr : SimplifiesTo target b s'.rhs)
    (hb : b.targets target + a.targets target = s.rhs.targets target) : Shift target t s s' := by
  obtain ⟨m, rfl, hm⟩ := Expr.monomial_of_isTarget ha
  have hr := hr.targets_le target
  rw [targets_monomial, if_pos hm] at hb
  exact .gathers hop hm hn hl (by omega)

variable [LawfulOne α]

/-- From an equation in normal form, a transposition does one of the three. -/
theorem Moves.shift {a : Equation α} (hmoves : Moves target t s a) (hs : Normal target s)
    (h : NormalizesTo target a s') : Shift target t s s' := by
  obtain ⟨hl, hr⟩ := h
  obtain ⟨hsl, hsr⟩ := hs
  cases hmoves with
  | leftAugend ha | leftMinuend ha => exact .of_leaves ha hsl.of_binary.1 rfl hl
  | leftAddend hb | leftSubtrahend hb => exact .of_leaves hb hsl.of_binary.2 rfl hl
  | negated ha => exact .of_leaves ha hsl.of_negate rfl hl
  | rightAugend ha | rightMinuend ha =>
    exact .of_gathers rfl ha hsr.of_binary.1 hl hr (Nat.add_comm _ _)
  | rightAddend hb | rightSubtrahend hb => exact .of_gathers rfl hb hsr.of_binary.2 hl hr rfl
  | scaled hm => exact .scales rfl hm rfl (hl.eq_of_normal hsl.unit) hr

/-- A step leaves a normal equation as it is, or does one of the three. -/
theorem Follows.shift (h : Follows target s s') (hs : Normal target s) :
    s' = s ∧ s.transpose? target = none ∨
      ∃ t a, s.transpose? target = some (t, a) ∧ Shift target t s s' := by
  rw [Follows, transpose] at h
  cases hstep : s.transpose? target with
  | none =>
    rw [hstep] at h
    exact .inl ⟨h.unique hs.normalizesTo, rfl⟩
  | some step =>
    rw [hstep] at h
    exact .inr ⟨step.1, step.2, rfl, (moves_of_transpose? hstep).shift hs h⟩

end

/-- A step makes no monomial of the target. -/
theorem Follows.targets_le (h : Follows target s s') : s'.targets target ≤ s.targets target := by
  have hmoved : (transpose target s).value.targets target = s.targets target := by
    have hcount := count_transpose (Expr.marks_isTarget target) target s
    simpa only [targets, count, Expr.targets_eq_count] using hcount
  have hl := h.lhs.targets_le target
  have hr := h.rhs.targets_le target
  rw [← hmoved, targets, targets]
  omega

/-! ## Runs that do not cross -/

variable [LawfulSign α]

/-- An equation in normal form from which the loop comes to none that crosses. -/
structure Quiet (target : String) (s : Equation α) : Prop where
  normal : Normal target s
  equalityFree : EqualityFree s
  not_crosses : ∀ s', ReflTransGen (Follows target) s s' → ¬ Crosses target s'

theorem Quiet.follows (hs : Quiet target s) (h : Follows target s s') : Quiet target s' :=
  ⟨h.normal, h.equalityFree hs.equalityFree, fun _ hreach => hs.not_crosses _ (.head h hreach)⟩

/-- A target gathered to a monomial of the target is combined with it. -/
theorem Quiet.targets_lt (hs : Quiet target s) (h : Follows target s s') {op : Operator}
    {m n : Monomial α} (hlhs : s.lhs = .monomial m) (hm : m.var = target)
    (hop : op.isAdditive = true) (hn : n.var = target) (hnormal : (Expr.monomial n).Normal target)
    (hl : SimplifiesTo target (.binary op s.lhs (.monomial n)) s'.lhs)
    (hr : s'.rhs.targets target < s.rhs.targets target) :
    s'.targets target < s.targets target := by
  have hsl := hs.normal.lhs
  rw [hlhs] at hsl hl
  rcases hl.of_monomials hop hsl hnormal with heq | hone
  · exact absurd ⟨op, m, n, hop, hm, hn, heq⟩ (hs.not_crosses s' (.single h))
  · rw [targets, targets, hlhs, targets_monomial, if_pos hm]
    omega

variable [LawfulOne α]

/-- If the target stands alone on the left with the coefficient one, the loop stops unless a
target is gathered. -/
theorem Quiet.settles_of_unit (hs : Quiet target s) {m : Monomial α} (hm : m.var = target)
    (hlhs : s.lhs = .monomial { m with coefficient := Scalar.natural 1 })
    (fewer : ∀ s' : Equation α, Quiet target s' → s'.targets target < s.targets target →
      Settles target s') : Settles target s := by
  obtain ⟨s', h⟩ := exists_follows target hs.equalityFree
  rcases h.shift hs.normal with ⟨rfl, -⟩ | ⟨t, a, -, hshift⟩
  · exact settles_of_follows_self h
  cases hshift with
  | leaves _ hnot _ => rw [hlhs] at hnot; cases hnot
  | gathers hop hn hnormal hl hr =>
    exact settles_of_follows h (fewer s' (hs.follows h)
      (hs.targets_lt h hlhs hm hop hn hnormal hl hr))
  | @scales n _ _ hn hl hr =>
    rw [hlhs] at hn
    cases hn
    -- the coefficient is one already, and a division by one changes nothing
    have heq : s' = s := by
      obtain ⟨lhs, rhs⟩ := s
      obtain ⟨lhs', rhs'⟩ := s'
      obtain rfl : rhs' = rhs := hr.unique (Expr.simplifiesTo_div_one hs.normal.rhs eqv_one_one)
      obtain rfl : lhs' = lhs := hl.trans hlhs.symm
      rfl
    subst heq
    exact settles_of_follows_self h

/-- If the target stands alone on the left, the loop stops unless a target is gathered. -/
theorem Quiet.settles_of_monomial (hs : Quiet target s) {m : Monomial α} (hm : m.var = target)
    (hlhs : s.lhs = .monomial m)
    (fewer : ∀ s' : Equation α, Quiet target s' → s'.targets target < s.targets target →
      Settles target s') : Settles target s := by
  obtain ⟨s', h⟩ := exists_follows target hs.equalityFree
  rcases h.shift hs.normal with ⟨rfl, -⟩ | ⟨t, a, -, hshift⟩
  · exact settles_of_follows_self h
  cases hshift with
  | leaves _ hnot _ => rw [hlhs] at hnot; cases hnot
  | gathers hop hn hnormal hl hr =>
    exact settles_of_follows h (fewer s' (hs.follows h)
      (hs.targets_lt h hlhs hm hop hn hnormal hl hr))
  | scales _ hn _ hl _ =>
    refine settles_of_follows h ((hs.follows h).settles_of_unit hn hl fun s'' hs'' hlt => ?_)
    exact fewer s'' hs'' (hlt.trans_le h.targets_le)

/-- A run that does not cross stops: it gathers targets until none is left on the right, leaves
one of them alone, and begins anew only with fewer targets. -/
theorem Quiet.settles (hs : Quiet target s) : Settles target s := by
  induction hcount : s.targets target using Nat.strong_induction_on generalizing s with
  | _ n fewer =>
    induction hright : s.rhs.targets target using Nat.strong_induction_on generalizing s with
    | _ k fewerRight =>
      have hfewer : ∀ s', Quiet target s' → s'.targets target < n → Settles target s' :=
        fun s' hs' hlt => fewer _ hlt hs' rfl
      obtain ⟨s', h⟩ := exists_follows target hs.equalityFree
      have hle := h.targets_le
      rw [hcount] at hle
      rcases h.shift hs.normal with ⟨rfl, -⟩ | ⟨t, a, -, hshift⟩
      · exact settles_of_follows_self h
      cases hshift with
      | leaves hm _ hl =>
        refine settles_of_follows h ((hs.follows h).settles_of_monomial hm hl ?_)
        exact fun s'' hs'' hlt => hfewer s'' hs'' (by omega)
      | gathers _ _ _ _ hr =>
        refine settles_of_follows h ?_
        rcases Nat.lt_or_eq_of_le hle with hlt | heq
        · exact hfewer s' (hs.follows h) hlt
        · exact fewerRight _ (hright ▸ hr) (hs.follows h) heq rfl
      | scales _ hm hlhs _ _ =>
        exact hs.settles_of_monomial hm hlhs fun s'' hs'' hlt => hfewer s'' hs'' (hcount ▸ hlt)

/-! ## Equations that the loop stops at -/

/-- No transposition applies, unless it divides by the coefficient one. -/
structure AtRest (target : String) (s : Equation α) : Prop where
  eq_scaled : ∀ t a, Moves target t s a → t = .scaled
  coefficient_eq_one : ∀ m, s.lhs = .monomial m → m.var = target →
    m.coefficient = Scalar.natural 1

namespace AtRest

omit [LawfulSign α] [LawfulOne α] in
theorem not_crosses (h : AtRest target s) : ¬ Crosses target s := by
  intro hcross
  obtain ⟨op, m, n, hop, hm, -, hlhs⟩ := hcross
  obtain ⟨lhs, rhs⟩ := s
  obtain rfl : lhs = .binary op (.monomial m) (.monomial n) := hlhs
  have hmt : (Expr.monomial m).isTarget target = true := beq_iff_eq.mpr hm
  cases op with
  | add => cases h.eq_scaled _ _ (.leftAugend hmt)
  | sub => cases h.eq_scaled _ _ (.leftMinuend hmt)
  | _ => cases hop

/-- Transposing and normalizing leaves an equation at rest as it is, at any ceiling that admits a
pass. -/
theorem normalize_transpose {ceiling : Nat} (h : AtRest target s) (hs : Normal target s)
    (hpos : 0 < ceiling) :
    (normalize target ceiling (transpose target s).value).outcome = .ok s := by
  rw [transpose]
  cases hstep : s.transpose? target with
  | none => exact hs.normalize hpos
  | some step =>
    obtain ⟨t, a⟩ := step
    have hmoves := moves_of_transpose? hstep
    obtain rfl := h.eq_scaled t a hmoves
    cases hmoves with
    | @scaled m rhs hm =>
      have hone := h.coefficient_eq_one m rfl hm
      have heqv : Scalar.eqv m.coefficient (Scalar.natural 1) = true := by
        rw [hone]
        exact eqv_one_one
      have hround := Expr.round_div_one hs.rhs heqv
      refine normalize_outcome_of_sides ?_ (Expr.simplify_of_round hround hs.rhs hpos)
      show (Expr.simplify target ceiling
        (.monomial { m with coefficient := Scalar.natural 1 })).outcome = .ok (.monomial m)
      rw [← hone]
      exact Expr.simplify_of_normal hs.lhs hpos

/-- An equation at rest is its own successor. -/
theorem follows_self (h : AtRest target s) (hs : Normal target s) : Follows target s s :=
  normalizesTo_of_normalize (h.normalize_transpose hs Nat.one_pos)

end AtRest

/-- The loop stops only at equations at rest. -/
theorem atRest_of_same (hs : Normal target s) (h : Follows target s s')
    (hsame : s'.same s = true) : AtRest target s' := by
  obtain ⟨hsl, hsr⟩ := Bool.and_eq_true_iff.mp hsame
  rcases h.shift hs with ⟨rfl, hnone⟩ | ⟨t, a, hstep, hshift⟩
  · refine ⟨fun t a hmoves => absurd hmoves (not_moves_of_transpose?_eq_none hnone), ?_⟩
    intro m hlhs hm
    obtain ⟨lhs, rhs⟩ := s'
    obtain rfl : lhs = .monomial m := hlhs
    exact absurd (.scaled hm) (not_moves_of_transpose?_eq_none hnone)
  · obtain ⟨lhs, rhs⟩ := s
    obtain ⟨lhs', rhs'⟩ := s'
    cases hshift with
    | leaves _ hnot hl =>
      obtain rfl := hl
      cases lhs <;> first | cases hsl | cases hnot
    | gathers _ _ _ _ hr =>
      have heq : rhs'.targets target = rhs.targets target :=
        (Expr.measures_eq_of_same target hsr).2.1
      exact absurd heq hr.ne
    | @scales m ht hm hlhs hl hr =>
      obtain rfl := ht
      obtain rfl := hlhs
      obtain rfl := hl
      have hone := LawfulOne.eqv_one_of_same (Bool.and_eq_true_iff.mp
        (Bool.and_eq_true_iff.mp hsl).1).1
      -- the division was by one, so the right side has stayed and gives nothing to gather
      obtain rfl : rhs' = rhs := hr.unique (Expr.simplifiesTo_div_one hs.rhs hone)
      constructor
      · intro t a hmoves
        cases hmoves with
        | rightAugend ha => cases eq_scaled_of_transpose? hstep (.rightAugend ha)
        | rightAddend hb => cases eq_scaled_of_transpose? hstep (.rightAddend hb)
        | rightMinuend ha => cases eq_scaled_of_transpose? hstep (.rightMinuend ha)
        | rightSubtrahend hb => cases eq_scaled_of_transpose? hstep (.rightSubtrahend hb)
        | scaled _ => rfl
      · intro n hn _
        cases hn
        rfl

/-- What the loop gives is an equation of the run, and it is at rest. -/
theorem reaches_of_settle {r : Equation α} {ceiling left : Nat} (hs : Normal target s)
    (h : (settle target ceiling left s).outcome = .ok r) :
    ReflTransGen (Follows target) s r ∧ AtRest target r := by
  induction left generalizing s with
  | zero => cases h
  | succ left ih =>
    cases hn : (normalize target ceiling (transpose target s).value).outcome with
    | error err =>
      rw [settle_outcome_of_error hn] at h
      cases h
    | ok s' =>
      have hs' : Follows target s s' := normalizesTo_of_normalize hn
      cases hsame : s'.same s with
      | true =>
        rw [settle_outcome_of_same hn hsame] at h
        cases h
        exact ⟨.single hs', atRest_of_same hs hs' hsame⟩
      | false =>
        rw [settle_outcome_of_not_same hn hsame] at h
        obtain ⟨hreach, hrest⟩ := ih hs'.normal h
        exact ⟨.head hs' hreach, hrest⟩

theorem SettlesTo.reaches {r : Equation α} (h : SettlesTo target s r) (hs : Normal target s) :
    ReflTransGen (Follows target) s r ∧ AtRest target r := by
  obtain ⟨n, hn⟩ := h
  exact reaches_of_settle hs (hn n n (Nat.le_refl n) (Nat.le_refl n))

/-! ## Endless runs -/

section
variable {run : Nat → Equation α} (hrun : ∀ k, Follows target (run k) (run (k + 1)))

include hrun

omit [LawfulOne α] in
theorem run_normal (h0 : Normal target (run 0)) : ∀ k, Normal target (run k)
  | 0 => h0
  | k + 1 => (hrun k).normal

omit [LawfulSign α] [LawfulOne α] in
theorem run_equalityFree (h0 : EqualityFree (run 0)) : ∀ k, EqualityFree (run k)
  | 0 => h0
  | k + 1 => (hrun k).equalityFree (run_equalityFree h0 k)

omit [LawfulSign α] [LawfulOne α] in
/-- There is no other run. -/
theorem exists_run_eq {k : Nat} (h : ReflTransGen (Follows target) (run k) s) :
    ∃ j, k ≤ j ∧ run j = s := by
  induction h with
  | refl => exact ⟨k, Nat.le_refl k, rfl⟩
  | tail _ hstep ih =>
    obtain ⟨j, hj, rfl⟩ := ih
    exact ⟨j + 1, by omega, (hrun j).unique hstep⟩

omit [LawfulSign α] [LawfulOne α] in
theorem run_eq_of_follows_self {k : Nat} (h : Follows target (run k) (run k)) :
    ∀ j, run (k + j) = run k
  | 0 => rfl
  | j + 1 => by
    have hnext := hrun (k + j)
    rw [run_eq_of_follows_self h j] at hnext
    exact NormalizesTo.unique hnext h

/-- The loop stops on a run exactly if the run crosses finitely often. -/
theorem settles_iff_run (hnormal : Normal target (run 0)) (hfree : EqualityFree (run 0)) :
    Settles target (run 0) ↔ ∃ k, ∀ j, k ≤ j → ¬ Crosses target (run j) := by
  constructor
  · intro hsettles
    obtain ⟨r, hr⟩ := hsettles
    obtain ⟨hreach, hrest⟩ := hr.reaches hnormal
    obtain ⟨k, -, rfl⟩ := exists_run_eq hrun hreach
    have hself := hrest.follows_self (run_normal hrun hnormal k)
    refine ⟨k, fun j hj => ?_⟩
    obtain ⟨i, rfl⟩ := Nat.exists_eq_add_of_le hj
    rw [run_eq_of_follows_self hrun hself i]
    exact hrest.not_crosses
  · intro hquiet
    obtain ⟨k, hk⟩ := hquiet
    have hsettles : Settles target (run k) := by
      refine Quiet.settles ⟨run_normal hrun hnormal k, run_equalityFree hrun hfree k, ?_⟩
      intro s' hreach
      obtain ⟨j, hj, rfl⟩ := exists_run_eq hrun hreach
      exact hk j hj
    clear hk
    induction k with
    | zero => exact hsettles
    | succ k ih => exact ih (settles_of_follows (hrun k) hsettles)

end

/-! ## Doubles -/

/-- Whatever the equation, as long as its sides have no `=`, the loop without a ceiling is one
endless run. If the run crosses finitely often, isolating gives one and the same equation from some
ceiling on, and no transposition has anything left to do there; otherwise it stops at every
ceiling. -/
theorem isolate_settles_or_crosses (target : String) {e : Equation Float}
    (hl : e.lhs.EqualityFree) (hr : e.rhs.EqualityFree) :
    ∃ run : Nat → Equation Float, NormalizesTo target e (run 0) ∧
      (∀ k, Follows target (run k) (run (k + 1))) ∧
      ((∃ k, ∀ j, k ≤ j → ¬ Crosses target (run j)) ∧
          (∃ r : Equation Float, AtRest target r ∧ ∃ n, ∀ ceiling, n ≤ ceiling →
            (e.toExpr.isolate target ceiling).outcome = .ok r.toExpr) ∨
        (∀ k, ∃ j, k ≤ j ∧ Crosses target (run j)) ∧
          ∀ ceiling, (e.toExpr.isolate target ceiling).outcome = .error (.unsettled ceiling)) := by
  have hfree : EqualityFree e := ⟨hl, hr⟩
  obtain ⟨s, hs⟩ := exists_normalizesTo target hfree
  obtain ⟨run, rfl, hrun⟩ := exists_run target (hs.equalityFree hfree)
  have hiff := settles_iff_run hrun hs.normal (hs.equalityFree hfree)
  refine ⟨run, hs, hrun, ?_⟩
  by_cases hsettles : Settles target (run 0)
  · have hquiet := hiff.mp hsettles
    obtain ⟨r, hr⟩ := hsettles
    obtain ⟨n, hn⟩ := hr.isolate hs
    refine .inl ⟨hquiet, r, (hr.reaches hs.normal).2, n, ?_⟩
    intro ceiling hle
    rw [isolate_toExpr_outcome, hn ceiling hle]
    rfl
  · have hcross := mt hiff.mpr hsettles
    push Not at hcross
    refine .inr ⟨hcross, fun ceiling => ?_⟩
    rw [isolate_toExpr_outcome, isolate_of_not_settles hfree hs hsettles ceiling]
    rfl

/-- In `2x = y + x` the target is gathered, combined with the one on the left and left alone. -/
theorem isolate_settles_or_crosses_gathered :
    let x : Expr Float := .monomial ⟨1.0, "x", 1.0⟩
    let y : Expr Float := .monomial ⟨1.0, "y", 1.0⟩
    let e : Equation Float := ⟨.monomial ⟨2.0, "x", 1.0⟩, .binary .add y x⟩
    e.lhs.EqualityFree ∧ e.rhs.EqualityFree ∧
      (e.toExpr.isolate "x" 4).outcome = .ok (toExpr ⟨x, y⟩) ∧
      ∃ r : Equation Float, AtRest "x" r ∧ ∃ n, ∀ ceiling, n ≤ ceiling →
        (e.toExpr.isolate "x" ceiling).outcome = .ok r.toExpr := by
  intro x y e
  have hl : e.lhs.EqualityFree := by decide
  have hr : e.rhs.EqualityFree := by decide
  have h4 : (e.toExpr.isolate "x" 4).outcome = .ok (toExpr ⟨x, y⟩) := rfl
  refine ⟨hl, hr, h4, ?_⟩
  obtain ⟨-, -, -, ⟨-, hok⟩ | ⟨-, hnever⟩⟩ := isolate_settles_or_crosses "x" hl hr
  · exact hok
  · rw [hnever 4] at h4
    cases h4

/-- `x + x ^ 2 = 5` and `x = 5 - x ^ 2` follow each other for ever: the two powers of the target are
gathered on the left and sent back in turn. -/
theorem isolate_square_unsettled :
    let x : Expr Float := .monomial ⟨1.0, "x", 1.0⟩
    let square : Expr Float := .monomial ⟨1.0, "x", 2.0⟩
    let e : Equation Float := ⟨.binary .add x square, .number 5.0⟩
    e.lhs.EqualityFree ∧ e.rhs.EqualityFree ∧
      ∀ ceiling, (e.toExpr.isolate "x" ceiling).outcome = .error (.unsettled ceiling) := by
  intro x square e
  let sent : Equation Float := ⟨x, .binary .sub (.number 5.0) square⟩
  have he : Normal "x" e := ⟨⟨rfl, rfl⟩, ⟨rfl, rfl⟩⟩
  have hsent : Normal "x" sent := ⟨⟨rfl, rfl⟩, ⟨rfl, rfl⟩⟩
  have hfree : EqualityFree e := ⟨by decide, by decide⟩
  let run : Nat → Equation Float := fun k => if k % 2 = 0 then e else sent
  have hrun : ∀ k, Follows "x" (run k) (run (k + 1)) := by
    intro k
    rcases Nat.mod_two_eq_zero_or_one k with hk | hk
    · have hnext : (k + 1) % 2 ≠ 0 := by omega
      simp only [run, hk, hnext, if_true, if_false]
      exact hsent.normalizesTo
    · have hnext : (k + 1) % 2 = 0 := by omega
      simp only [run, hk, hnext, if_true, if_false, one_ne_zero]
      exact he.normalizesTo
  have hnever : ¬ Settles "x" e := by
    intro hsettles
    obtain ⟨k, hk⟩ := (settles_iff_run hrun he hfree).mp hsettles
    refine hk (2 * k) (by omega) ⟨.add, ⟨1.0, "x", 1.0⟩, ⟨1.0, "x", 2.0⟩, rfl, rfl, rfl, ?_⟩
    simp [run, e, x, square]
  refine ⟨hfree.lhs, hfree.rhs, fun ceiling => ?_⟩
  rw [isolate_toExpr_outcome, isolate_of_not_settles hfree he.normalizesTo hnever ceiling]
  rfl

end Equation
end SymbolicAlgebra
