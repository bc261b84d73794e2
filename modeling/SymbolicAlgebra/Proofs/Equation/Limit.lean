import SymbolicAlgebra.Proofs.Equation.Isolate
import SymbolicAlgebra.Proofs.Rewrite.Limit

/-!
# Isolating a variable without a ceiling

`NormalizesTo` simplifies both sides without a ceiling and `Follows` is one
step of the loop without one. An equation whose sides have no `=` has exactly
one such successor, so the loop without a ceiling is one endless sequence of
equations. `SettlesTo` says that the loop stops somewhere on it, and at what.

Results:
* `exists_run`: the endless sequence.
* `settles_of_follows`, `settles_of_follows_self`: an equation settles if the
  next one does, or if it is its own successor.
* `Visits.count_le`: no visited equation has more marked nodes than the first.
* `isolate_eq_error_or_ok`: isolating gives an equation or stops at the ceiling.
* `settle_outcome_cases`: the loop settles, or it stops at the ceiling.
* `SettlesTo.isolate`: from some ceiling on, isolating gives what the loop comes
  to.
-/
namespace SymbolicAlgebra.Equation

open SymbolicAlgebra.Expr (SimplifiesTo)

variable {α : Type} [Scalar α] {target : String} {ceiling left : Nat} {e r s s' : Equation α}

/-- No `=` stands in either side. -/
structure EqualityFree (e : Equation α) : Prop where
  lhs : e.lhs.EqualityFree
  rhs : e.rhs.EqualityFree

/-- Both sides are left as they are by a pass and by a folding. -/
structure Normal (target : String) (e : Equation α) : Prop where
  lhs : e.lhs.Normal target
  rhs : e.rhs.Normal target

/-- The equation between the results of both sides. -/
structure NormalizesTo (target : String) (e s : Equation α) : Prop where
  lhs : SimplifiesTo target e.lhs s.lhs
  rhs : SimplifiesTo target e.rhs s.rhs

/-- One step of the loop, both sides being simplified without a ceiling. -/
def Follows (target : String) (s s' : Equation α) : Prop :=
  NormalizesTo target (transpose target s).value s'

/-- From some count of steps left on, the loop comes to `r`. -/
def SettlesTo (target : String) (s r : Equation α) : Prop :=
  ∃ n, ∀ ceiling left, n ≤ ceiling → n ≤ left → (settle target ceiling left s).outcome = .ok r

/-- The loop stops. -/
def Settles (target : String) (s : Equation α) : Prop := ∃ r, SettlesTo target s r

/-! ## Monomials and equations in both sides -/

/-- The count of the nodes in both sides that `f` marks. -/
def count (f : Expr α → Bool) (e : Equation α) : Nat := Expr.count f e.lhs + Expr.count f e.rhs

omit [Scalar α] in
theorem equalityFree_iff_count : EqualityFree e ↔ count Expr.isEquation e = 0 := by
  rw [count, Nat.add_eq_zero_iff, ← Expr.equalityFree_iff_count, ← Expr.equalityFree_iff_count]
  exact ⟨fun h => ⟨h.lhs, h.rhs⟩, fun h => ⟨h.1, h.2⟩⟩

section
variable {f : Expr α → Bool} (hf : Expr.Marks f)

include hf

/-- A transposition counts every marked node once more. -/
theorem Moves.count_eq {t : Transposition} {e e' : Equation α} (h : Moves target t e e') :
    count f e' = count f e := by
  have hadd := hf.count_binary (show Operator.add ≠ .equals by decide)
  have hsub := hf.count_binary (show Operator.sub ≠ .equals by decide)
  have hdiv := hf.count_binary (show Operator.div ≠ .equals by decide)
  unfold count
  cases h with
  | leftAugend _ | leftAddend _ | rightAugend _ | rightAddend _ =>
    simp only [hadd, hsub]; omega
  | leftMinuend _ | rightSubtrahend _ => simp only [hadd, hsub]; omega
  | leftSubtrahend _ => simp only [hadd, hsub, hf.count_negate]; omega
  | rightMinuend _ => simp only [hsub, hf.count_negate]; omega
  | negated _ => simp only [hf.count_negate]
  | scaled _ => simp only [hdiv, hf.count_number, hf.count_rescaled]; omega

theorem count_transpose (target : String) (e : Equation α) :
    count f (transpose target e).value = count f e := by
  rcases transpose_value target e with heq | ⟨t, hmoves⟩
  · rw [heq]
  · exact hmoves.count_eq hf

/-- Simplifying both sides raises no count. -/
theorem count_normalize_le (h : (normalize target ceiling e).outcome = .ok s) :
    count f s ≤ count f e := by
  obtain ⟨hl, hr⟩ := normalize_eq_ok h
  exact Nat.add_le_add (hf.count_simplify_le hl) (hf.count_simplify_le hr)

/-- No visited equation has more marked nodes than the first one. -/
theorem Visits.count_le (h : Visits target ceiling e s) : count f s ≤ count f e := by
  induction h with
  | start hnorm => exact count_normalize_le hf hnorm
  | @next a b _ hnorm ih =>
    have hmoved := count_transpose hf target a
    exact (count_normalize_le hf hnorm).trans (hmoved.trans_le ih)

end

/-- Moving a term brings no `=` into the sides. -/
theorem EqualityFree.transpose (h : EqualityFree e) (target : String) :
    EqualityFree (transpose target e).value := by
  rw [equalityFree_iff_count] at h ⊢
  rw [count_transpose Expr.marks_isEquation, h]

theorem NormalizesTo.equalityFree (h : NormalizesTo target e s) (he : EqualityFree e) :
    EqualityFree s :=
  ⟨h.lhs.equalityFree he.lhs, h.rhs.equalityFree he.rhs⟩

theorem Follows.equalityFree (h : Follows target s s') (hs : EqualityFree s) : EqualityFree s' :=
  NormalizesTo.equalityFree h (hs.transpose target)

/-! ## Outcomes with a ceiling -/

theorem NormalizesTo.unique (h : NormalizesTo target e s) (h' : NormalizesTo target e s') :
    s = s' := by
  obtain ⟨lhs, rhs⟩ := s
  obtain ⟨lhs', rhs'⟩ := s'
  obtain rfl : lhs = lhs' := h.lhs.unique h'.lhs
  obtain rfl : rhs = rhs' := h.rhs.unique h'.rhs
  rfl

/-- Normalizing gives the equation between what both sides simplify to. -/
theorem normalize_outcome_of_sides (hl : (e.lhs.simplify target ceiling).outcome = .ok s.lhs)
    (hr : (e.rhs.simplify target ceiling).outcome = .ok s.rhs) :
    (normalize target ceiling e).outcome = .ok s := by
  simp only [normalize, Attempt.outcome_bind, hl, hr]
  rfl

theorem NormalizesTo.outcome (h : NormalizesTo target e s) :
    ∃ n, ∀ ceiling, n ≤ ceiling → (normalize target ceiling e).outcome = .ok s := by
  obtain ⟨n, hn⟩ := h.lhs
  obtain ⟨m, hm⟩ := h.rhs
  refine ⟨max n m, fun ceiling hle => ?_⟩
  exact normalize_outcome_of_sides (hn ceiling (by omega)) (hm ceiling (by omega))

/-- Normalizing gives the equation that it gives without a ceiling, or stops at the ceiling. -/
theorem normalize_outcome_cases (target : String) (ceiling : Nat) (he : EqualityFree e) :
    (normalize target ceiling e).outcome = .error (.unsettled ceiling) ∨
      ∃ s, (normalize target ceiling e).outcome = .ok s ∧ NormalizesTo target e s := by
  simp only [normalize, Attempt.outcome_bind]
  rcases Expr.simplify_outcome_cases target ceiling he.lhs with hl | ⟨lhs, hl, hls⟩
  · rw [hl]; exact .inl rfl
  · rcases Expr.simplify_outcome_cases target ceiling he.rhs with hr | ⟨rhs, hr, hrs⟩
    · rw [hl, hr]; exact .inl rfl
    · rw [hl, hr]; exact .inr ⟨⟨lhs, rhs⟩, rfl, hls, hrs⟩

/-- Where normalizing gives an equation, it is the one that it gives without a ceiling. -/
theorem normalizesTo_of_normalize (h : (normalize target ceiling e).outcome = .ok s) :
    NormalizesTo target e s := by
  obtain ⟨hl, hr⟩ := normalize_eq_ok h
  exact ⟨Expr.simplifiesTo_of_simplify hl, Expr.simplifiesTo_of_simplify hr⟩

/-- An iteration that ends in an equal equation is the last one. -/
theorem settle_outcome_of_same
    (hn : (normalize target ceiling (transpose target s).value).outcome = .ok s')
    (h : s'.same s = true) : (settle target ceiling (left + 1) s).outcome = .ok s' := by
  simp only [settle, Attempt.outcome_bind, Attempt.outcome_traced, pure_bind, hn]
  show Attempt.outcome (if s'.same s = true then _ else _) = _
  rw [if_pos h]
  rfl

/-- Any other iteration goes on with what it gave. -/
theorem settle_outcome_of_not_same
    (hn : (normalize target ceiling (transpose target s).value).outcome = .ok s')
    (h : s'.same s = false) : (settle target ceiling (left + 1) s).outcome =
      (settle target ceiling left s').outcome := by
  simp only [settle, Attempt.outcome_bind, Attempt.outcome_traced, pure_bind, hn]
  show Attempt.outcome (if s'.same s = true then _ else _) = _
  rw [if_neg (by simp [h])]

theorem settle_outcome_of_error {err : RewriteError α}
    (hn : (normalize target ceiling (transpose target s).value).outcome = .error err) :
    (settle target ceiling (left + 1) s).outcome = .error err := by
  simp only [settle, Attempt.outcome_bind, Attempt.outcome_traced, pure_bind, hn]
  rfl

/-- The loop gives an equation or stops at the ceiling. -/
theorem settle_eq_error_or_ok (target : String) (ceiling left : Nat) (hs : EqualityFree s) :
    (settle target ceiling left s).outcome = .error (.unsettled ceiling) ∨
      ∃ r, (settle target ceiling left s).outcome = .ok r := by
  induction left generalizing s with
  | zero => exact .inl rfl
  | succ left ih =>
    rcases normalize_outcome_cases target ceiling (hs.transpose target) with hn | ⟨s', hn, hs'⟩
    · exact .inl (settle_outcome_of_error hn)
    · cases hsame : s'.same s with
      | true => exact .inr ⟨s', settle_outcome_of_same hn hsame⟩
      | false =>
        rw [settle_outcome_of_not_same hn hsame]
        exact ih (hs'.equalityFree (hs.transpose target))

/-- Isolating a variable gives an equation or stops at the ceiling. -/
theorem isolate_eq_error_or_ok (target : String) (ceiling : Nat) (he : EqualityFree e) :
    (isolate target ceiling e).outcome = .error (.unsettled ceiling) ∨
      ∃ r, (isolate target ceiling e).outcome = .ok r := by
  simp only [isolate, Attempt.outcome_bind]
  rcases normalize_outcome_cases target ceiling he with hn | ⟨s, hn, hs⟩
  · rw [hn]; exact .inl rfl
  · rw [hn]; exact settle_eq_error_or_ok target ceiling ceiling (hs.equalityFree he)

theorem settles_of_same (h : Follows target s s') (hs : s'.same s = true) : Settles target s := by
  obtain ⟨n, hn⟩ := h.outcome
  refine ⟨s', n + 1, fun ceiling left hc hl => ?_⟩
  obtain ⟨left, rfl⟩ := Nat.exists_eq_add_of_le' (Nat.le_of_add_left_le hl)
  exact settle_outcome_of_same (hn ceiling (by omega)) hs

/-- An equation settles if its successor does. -/
theorem settles_of_follows (h : Follows target s s') (hs : Settles target s') :
    Settles target s := by
  cases hsame : s'.same s with
  | true => exact settles_of_same h hsame
  | false =>
    obtain ⟨n, hn⟩ := h.outcome
    obtain ⟨r, m, hm⟩ := hs
    refine ⟨r, max n m + 1, fun ceiling left hc hl => ?_⟩
    obtain ⟨left, rfl⟩ := Nat.exists_eq_add_of_le' (Nat.le_of_add_left_le hl)
    rw [settle_outcome_of_not_same (hn ceiling (by omega)) hsame]
    exact hm ceiling left (by omega) (by omega)

/-- From some ceiling on, isolating gives what the loop comes to. -/
theorem SettlesTo.isolate (hs : SettlesTo target s r) (h : NormalizesTo target e s) :
    ∃ n, ∀ ceiling, n ≤ ceiling → (isolate target ceiling e).outcome = .ok r := by
  obtain ⟨n, hn⟩ := h.outcome
  obtain ⟨m, hm⟩ := hs
  refine ⟨max n m, fun ceiling hle => ?_⟩
  simp only [Equation.isolate, Attempt.outcome_bind]
  rw [hn ceiling (by omega)]
  exact hm ceiling ceiling (by omega) (by omega)

/-- A tree that is an equation is isolated as one. -/
theorem isolate_toExpr_outcome (target : String) (ceiling : Nat) (e : Equation α) :
    (e.toExpr.isolate target ceiling).outcome =
      (isolate target ceiling e).outcome.map toExpr := by
  simp only [Expr.isolate, Expr.asEquation, ofExpr?_toExpr, Attempt.outcome_bind,
    Attempt.outcome_ofExcept]
  show (isolate target ceiling e).outcome >>= _ = _
  cases (isolate target ceiling e).outcome <;> rfl

/-! ## The loop without a ceiling -/

variable [LawfulSign α]

theorem Normal.normalizesTo (h : Normal target e) : NormalizesTo target e e :=
  ⟨h.lhs.simplifiesTo, h.rhs.simplifiesTo⟩

/-- Normalizing leaves a normal equation as it is, at any ceiling that admits a pass. -/
theorem Normal.normalize (h : Normal target e) (hpos : 0 < ceiling) :
    (normalize target ceiling e).outcome = .ok e :=
  normalize_outcome_of_sides (Expr.simplify_of_normal h.lhs hpos)
    (Expr.simplify_of_normal h.rhs hpos)

theorem NormalizesTo.normal (h : NormalizesTo target e s) : Normal target s :=
  ⟨h.lhs.normal, h.rhs.normal⟩

theorem exists_normalizesTo (target : String) (he : EqualityFree e) :
    ∃ s, NormalizesTo target e s := by
  obtain ⟨lhs, hl⟩ := Expr.exists_simplifiesTo target he.lhs
  obtain ⟨rhs, hr⟩ := Expr.exists_simplifiesTo target he.rhs
  exact ⟨⟨lhs, rhs⟩, hl, hr⟩

/-- An equation whose sides have no `=` has a successor. -/
theorem exists_follows (target : String) (hs : EqualityFree s) : ∃ s', Follows target s s' :=
  exists_normalizesTo target (hs.transpose target)

theorem exists_run (target : String) (hs : EqualityFree s) :
    ∃ run : Nat → Equation α, run 0 = s ∧ ∀ k, Follows target (run k) (run (k + 1)) := by
  have hnext : ∀ a : { a : Equation α // EqualityFree a },
      ∃ b : { b : Equation α // EqualityFree b }, Follows target a.1 b.1 := by
    intro a
    obtain ⟨b, hb⟩ := exists_follows target a.2
    exact ⟨⟨b, hb.equalityFree a.2⟩, hb⟩
  obtain ⟨next, hfollows⟩ := Classical.axiomOfChoice hnext
  refine ⟨fun k => (next^[k] ⟨s, hs⟩).1, rfl, fun k => ?_⟩
  show Follows target (next^[k] ⟨s, hs⟩).1 (next^[k + 1] ⟨s, hs⟩).1
  rw [Function.iterate_succ_apply']
  exact hfollows _

theorem same_self (e : Equation α) : e.same e = true := by
  rw [same, Expr.same_self LawfulSign.same_self, Expr.same_self LawfulSign.same_self]
  rfl

theorem settles_of_follows_self (h : Follows target s s) : Settles target s :=
  settles_of_same h (same_self s)

omit [LawfulSign α] in
/-- The loop stops at the ceiling or settles. -/
theorem settle_outcome_cases (target : String) (ceiling left : Nat) (hs : EqualityFree s) :
    (settle target ceiling left s).outcome = .error (.unsettled ceiling) ∨ Settles target s := by
  induction left generalizing s with
  | zero => exact .inl rfl
  | succ left ih =>
    rcases normalize_outcome_cases target ceiling (hs.transpose target) with hn | ⟨s', hn, hs'⟩
    · exact .inl (settle_outcome_of_error hn)
    · cases hsame : s'.same s with
      | true => exact .inr (settles_of_same hs' hsame)
      | false =>
        rw [settle_outcome_of_not_same hn hsame]
        rcases ih (Follows.equalityFree hs' hs) with herr | hsettles
        · exact .inl herr
        · exact .inr (settles_of_follows hs' hsettles)

omit [LawfulSign α] in
/-- Isolating stops at every ceiling if the loop does not settle. -/
theorem isolate_of_not_settles (he : EqualityFree e) (h : NormalizesTo target e s)
    (hs : ¬ Settles target s) (ceiling : Nat) :
    (isolate target ceiling e).outcome = .error (.unsettled ceiling) := by
  simp only [isolate, Attempt.outcome_bind]
  rcases normalize_outcome_cases target ceiling he with hn | ⟨s', hn, hs'⟩
  · rw [hn]; rfl
  · obtain rfl := hs'.unique h
    rw [hn]
    exact (settle_outcome_cases target ceiling ceiling (h.equalityFree he)).resolve_right hs

end SymbolicAlgebra.Equation
