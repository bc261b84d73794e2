import SymbolicAlgebra.Proofs.Rewrite.NormalForm

/-!
# An equation is simplified side by side

The simplifier runs both sides of an equation through one loop that stops where
neither changes, while a solver runs each side through a loop of its own. A
side that has come to rest is left as it is by every further pass and folding,
so the joint loop ends with the two results, whichever side is done first. Only
where both sides are literals does it end otherwise, at the folding that finds
them so.

Results:
* `foldBinary_equals`: the folding of `=` fails at two literals and only there.
* `pass_equals`, `same_equals`: a pass over an equation is a pass over each
  side, and changes nothing where it changes neither.
* `settle_equals_of_rounds`: a joint round is a round of each side.
* `settle_cases`: a side with a result is at rest or takes a round towards it.
* `settle_equals`: the joint loop ends as the folding of the two results does.
* `simplify_equals`: simplifying an equation is simplifying its sides.
-/
namespace SymbolicAlgebra.Expr

variable {α : Type} [Scalar α] {target : String} {ceiling left : Nat} {e r l l' r' L R : Expr α}

/-! ## The root of an equation -/

/-- The folding of an equation with folded sides fails at two literals and changes nothing
elsewhere. -/
theorem foldBinary_equals (l r : Expr α) :
    ((∃ a, l = .number a) ∧ ∃ b, r = .number b) ∧ foldBinary .equals l r = .error .equality ∨
      ¬ ((∃ a, l = .number a) ∧ ∃ b, r = .number b) ∧
        foldBinary .equals l r = .ok (.binary .equals l r) := by
  unfold foldBinary
  split
  · exact .inl ⟨⟨⟨_, rfl⟩, ⟨_, rfl⟩⟩, rfl⟩
  · rename_i hn
    refine .inr ⟨?_, rfl⟩
    rintro ⟨⟨a, ha⟩, ⟨b, hb⟩⟩
    exact hn a b ha hb

/-- No rule fires at the root of an equation. -/
theorem pass_equals (target : String) (l r : Expr α) :
    (pass target (.binary .equals l r)).value =
      .binary .equals (pass target l).value (pass target r).value := by
  simp only [pass, Traced.value_bind, binaryStep?]
  rfl

theorem same_equals (l r l' r' : Expr α) :
    (binary .equals l r).same (.binary .equals l' r') = (l.same l' && r.same r') := by
  simp [same]

theorem fold_equals (hl : fold l = .ok l') (hr : fold r = .ok r') :
    fold (.binary .equals l r) = foldBinary .equals l' r' := by
  rw [fold, hl, hr]
  rfl

/-! ## One round -/

/-- A round takes `e` to a folded tree from which the loop ends with `r`. -/
structure Advances (target : String) (ceiling left : Nat) (e next r : Expr α) : Prop where
  round : fold (pass target e).value = .ok next
  folded : fold next = .ok next
  outcome : (settle target ceiling left next).outcome = .ok r

section
variable [LawfulSign α]

/-- A pass changes no literal. -/
theorem ne_number_of_not_same (h : (pass target e).value.same e = false) :
    ¬ ∃ a, e = .number a := by
  rintro ⟨a, rfl⟩
  have hs : (number a).same (.number a) = true := same_self LawfulSign.same_self _
  rw [pass, Traced.value_pure, hs] at h
  cases h

/-- Where a pass changes one side, nothing is folded at the root of the equation. -/
theorem foldBinary_equals_of_not_same
    (hs : (pass target l).value.same l = false ∨ (pass target r).value.same r = false) :
    foldBinary .equals l r = .ok (.binary .equals l r) := by
  rcases foldBinary_equals l r with ⟨⟨hnl, hnr⟩, -⟩ | ⟨-, hok⟩
  · rcases hs with hs | hs
    · exact absurd hnl (ne_number_of_not_same hs)
    · exact absurd hnr (ne_number_of_not_same hs)
  · exact hok

/-- Where a pass changes one side, a round of the joint loop is a round of each side. -/
theorem settle_equals_of_rounds
    (hs : (pass target l).value.same l = false ∨ (pass target r).value.same r = false)
    (hl : fold (pass target l).value = .ok l') (hr : fold (pass target r).value = .ok r') :
    (foldBinary .equals l r >>= fun e => (settle target ceiling (left + 1) e).outcome) =
      foldBinary .equals l' r' >>= fun e => (settle target ceiling left e).outcome := by
  have hsame : (pass target (.binary .equals l r)).value.same (.binary .equals l r) = false := by
    rw [pass_equals, same_equals]
    rcases hs with hs | hs
    · rw [hs, Bool.false_and]
    · rw [hs, Bool.and_false]
  rw [foldBinary_equals_of_not_same hs]
  refine (settle_outcome_of_not_same hsame).trans ?_
  rw [pass_equals, fold_equals hl hr]

/-- A tree with a result is at rest, or a round changes it. -/
theorem settle_cases (h : (settle target ceiling (left + 1) e).outcome = .ok r) :
    (pass target e = pure e ∧ r = e) ∨
      (pass target e).value.same e = false ∧ 0 < left ∧
        ∃ next, Advances target ceiling left e next r := by
  cases hs : (pass target e).value.same e with
  | true =>
    have hp := pass_eq_pure_of_same hs
    rw [settle_outcome_of_same hs, hp, Traced.value_pure] at h
    cases h
    exact .inl ⟨hp, rfl⟩
  | false =>
    rw [settle_outcome_of_not_same hs, except_bind_eq_ok] at h
    obtain ⟨next, hnext, h⟩ := h
    refine .inr ⟨rfl, ?_, next, hnext, fold_fold hnext, h⟩
    cases left with
    | zero => cases h
    | succ left => exact Nat.succ_pos left

/-- A side at rest takes further rounds that leave it as it is. -/
theorem Advances.of_rest (hfold : fold e = .ok e) (hp : pass target e = pure e)
    (hleft : 0 < left) : Advances target ceiling left e e e := by
  obtain ⟨left, rfl⟩ := Nat.exists_eq_add_of_le' hleft
  refine ⟨?_, hfold, settle_of_pass_eq_pure hp⟩
  rw [hp, Traced.value_pure, hfold]

/-! ## The joint loop -/

/-- Where both sides are at rest the joint loop ends at once. -/
theorem settle_equals_of_rest (hl : pass target l = pure l) (hr : pass target r = pure r) :
    (settle target ceiling (left + 1) (.binary .equals l r)).outcome =
      .ok (.binary .equals l r) := by
  refine settle_of_pass_eq_pure ?_
  simp only [pass, hl, hr, pure_bind, binaryStep?]
  rfl

/-- The loop over an equation ends as the folding of the results of its sides does. -/
theorem settle_equals (hl : fold l = .ok l) (hr : fold r = .ok r)
    (hL : (settle target ceiling left l).outcome = .ok L)
    (hR : (settle target ceiling left r).outcome = .ok R) :
    (foldBinary .equals l r >>= fun e => (settle target ceiling left e).outcome) =
      foldBinary .equals L R := by
  induction left generalizing l r with
  | zero => cases hL
  | succ left ih =>
    -- two sides that both take a round, at least one of them changed by it
    have step : ∀ {l' r'}, Advances target ceiling left l l' L →
        Advances target ceiling left r r' R →
        ((pass target l).value.same l = false ∨ (pass target r).value.same r = false) →
        (foldBinary .equals l r >>= fun e => (settle target ceiling (left + 1) e).outcome) =
          foldBinary .equals L R := by
      intro l' r' hl' hr' hs
      refine (settle_equals_of_rounds hs hl'.round hr'.round).trans ?_
      exact ih hl'.folded hr'.folded hl'.outcome hr'.outcome
    rcases settle_cases hL with ⟨hpl, rfl⟩ | ⟨hsl, hleft, l', hl'⟩
    · rcases settle_cases hR with ⟨hpr, rfl⟩ | ⟨hsr, hleft, r', hr'⟩
      · rcases foldBinary_equals L R with ⟨-, herr⟩ | ⟨-, hok⟩
        · rw [herr]; rfl
        · rw [hok]
          exact settle_equals_of_rest hpl hpr
      · exact step (.of_rest hl hpl hleft) hr' (.inr hsr)
    · rcases settle_cases hR with ⟨hpr, rfl⟩ | ⟨-, -, r', hr'⟩
      · exact step hl' (.of_rest hr hpr hleft) (.inl hsl)
      · exact step hl' hr' (.inl hsl)

/-- Where both sides have a result, simplifying the equation folds the two results. -/
theorem simplify_equals_outcome (hL : (simplify target ceiling l).outcome = .ok L)
    (hR : (simplify target ceiling r).outcome = .ok R) :
    (simplify target ceiling (.binary .equals l r)).outcome = foldBinary .equals L R := by
  rw [simplify_outcome, except_bind_eq_ok] at hL hR
  obtain ⟨l', hl', hL⟩ := hL
  obtain ⟨r', hr', hR⟩ := hR
  rw [simplify_outcome, pass_equals, fold_equals hl' hr']
  exact settle_equals (fold_fold hl') (fold_fold hr') hL hR

end

/-- Where both sides have a result on doubles, simplifying the equation fails if both results are
literals and gives the equation between them otherwise. -/
theorem simplify_equals {l r L R : Expr Float}
    (hL : (simplify target ceiling l).outcome = .ok L)
    (hR : (simplify target ceiling r).outcome = .ok R) :
    ((simplify target ceiling (.binary .equals l r)).outcome = .error .equality ↔
        (∃ a, L = .number a) ∧ ∃ b, R = .number b) ∧
      (¬ ((∃ a, L = .number a) ∧ ∃ b, R = .number b) →
        (simplify target ceiling (.binary .equals l r)).outcome = .ok (.binary .equals L R)) := by
  rw [simplify_equals_outcome hL hR]
  rcases foldBinary_equals L R with ⟨hn, herr⟩ | ⟨hn, hok⟩
  · rw [herr]
    exact ⟨iff_of_true rfl hn, fun h => absurd hn h⟩
  · rw [hok]
    refine ⟨iff_of_false ?_ hn, fun _ => rfl⟩
    intro h
    cases h

/-- `x + -x` comes to `0` a pass later than the other sides are done: `x + -x = 5` fails, and
`x + -x = y - -z` becomes `0 = y + z`. -/
theorem simplify_equals_zero : let x : Expr Float := .monomial ⟨1.0, "x", 1.0⟩
    let y : Expr Float := .monomial ⟨1.0, "y", 1.0⟩
    let z : Expr Float := .monomial ⟨1.0, "z", 1.0⟩
    let cancelled := .binary .add x (.negate x)
    (simplify "x" 2 (.binary .equals cancelled (.number 5.0))).outcome = .error .equality ∧
      (simplify "x" 2 (.binary .equals cancelled (.binary .sub y (.negate z)))).outcome =
        .ok (.binary .equals (literal 0) (.binary .add y z)) := by
  intro x y z cancelled
  have hl : (simplify "x" 2 cancelled).outcome = .ok (literal 0) := rfl
  have hfive : (simplify "x" 2 (.number 5.0 : Expr Float)).outcome = .ok (.number 5.0) := rfl
  have hsum : (simplify "x" 2 (.binary .sub y (.negate z))).outcome = .ok (.binary .add y z) := rfl
  refine ⟨(simplify_equals hl hfive).1.mpr ⟨⟨_, rfl⟩, ⟨_, rfl⟩⟩, (simplify_equals hl hsum).2 ?_⟩
  rintro ⟨-, b, hb⟩
  cases hb

end SymbolicAlgebra.Expr
