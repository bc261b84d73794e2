import SymbolicAlgebra.Rewrite.Pass

/-!
# The rewrite rules as a relation

`Contracts target e e'` says that some rule takes the tree `e` at its root to
`e'`. It has one constructor a rule, with the rule's own side condition and
without the order in which rules are tried, so a fact about every rule is one
case analysis and unfolds no rule function. The one exception is `timesPower`,
which only takes powers that are not equal: equal ones are squared before.

Results:
* `contracts_of_contract?`: what fires at a node is one of the constructors.
* `not_contracts`: where nothing fires at a node, no constructor applies there,
  so the order of the rules never hides a tree that some rule would change.
-/
namespace SymbolicAlgebra.Expr

variable {α : Type} [Scalar α]

/-- One rule applied at the root of a tree. -/
inductive Contracts (target : String) : Expr α → Expr α → Prop
  | zeroPlus {l r} : l.isLiteral 0 = true → Contracts target (.binary .add l r) r
  | plusZero {l r} : r.isLiteral 0 = true → Contracts target (.binary .add l r) l
  | plusSelf {l r} : l.repeats r = true →
      Contracts target (.binary .add l r) (.binary .mul (literal 2) l)
  | plusNegated {l b} : Contracts target (.binary .add l (.negate b)) (.binary .sub l b)
  | minusZero {l r} : r.isLiteral 0 = true → Contracts target (.binary .sub l r) l
  | zeroMinus {l r} : l.isLiteral 0 = true → Contracts target (.binary .sub l r) (.negate r)
  | minusSelf {l r} : l.same r = true → Contracts target (.binary .sub l r) (literal 0)
  | minusNegated {l b} : Contracts target (.binary .sub l (.negate b)) (.binary .add l b)
  | oneTimes {l r} : l.isLiteral 1 = true → Contracts target (.binary .mul l r) r
  | timesOne {l r} : r.isLiteral 1 = true → Contracts target (.binary .mul l r) l
  | zeroTimes {l r} : l.isLiteral 0 = true → Contracts target (.binary .mul l r) (literal 0)
  | timesZero {l r} : r.isLiteral 0 = true → Contracts target (.binary .mul l r) (literal 0)
  | timesSelf {l r} : l.repeats r = true →
      Contracts target (.binary .mul l r) (.binary .pow l (literal 2))
  | timesPower {a a' b c} : a.same a' = true →
      (binary .pow a b).repeats (.binary .pow a' c) = false →
      Contracts target (.binary .mul (.binary .pow a b) (.binary .pow a' c))
        (.binary .pow a (.binary .add b c))
  | timesSum {n op b c} : op.isAdditive = true →
      Contracts target (.binary .mul (.number n) (.binary op b c))
        (.binary op (.binary .mul (.number n) b) (.binary .mul (.number n) c))
  | timesMonomial {n m} :
      Contracts target (.binary .mul (.number n) (.monomial m))
        (.monomial { m with coefficient := Scalar.mul n m.coefficient })
  | overOne {l r} : r.isLiteral 1 = true → Contracts target (.binary .div l r) l
  | monomialOver {m n} :
      Contracts target (.binary .div (.monomial m) (.number n))
        (.monomial { m with coefficient := Scalar.div m.coefficient n })
  | overSelf {l r} : l.same r = true → Contracts target (.binary .div l r) (literal 1)
  | powerZero {l r} : r.isLiteral 0 = true → Contracts target (.binary .pow l r) (literal 1)
  | powerOne {l r} : r.isLiteral 1 = true → Contracts target (.binary .pow l r) l
  | powerNegated {l n} :
      Contracts target (.binary .pow l (.negate (.number n)))
        (.binary .div (literal 1) (.binary .pow l (.number n)))
  | zeroCoefficient {m} : Scalar.eqv m.coefficient (Scalar.natural 0) = true →
      Contracts target (.monomial m) (literal 0)
  | zeroExponent {m} : Scalar.eqv m.exponent (Scalar.natural 0) = true →
      Contracts target (.monomial m) (literal 1)
  | negativeCoefficient {m} : Scalar.isNegative m.coefficient = true →
      Contracts target (.monomial m)
        (.negate (.monomial { m with coefficient := Scalar.neg m.coefficient }))
  | negatedNegation {e} : Contracts target (.negate (.negate e)) e
  | negatedSum {op l r} : op.isAdditive = true →
      Contracts target (.negate (.binary op l r)) (.binary op (.negate l) (.negate r))
  | negatedProduct {op l r} : op.isMultiplicative = true ∨ op = .mod →
      Contracts target (.negate (.binary op l r)) (.binary op (.negate l) r)
  | merged {op a b m} : a.merge? op b = some m →
      Contracts target (.binary op (.monomial a) (.monomial b)) (.monomial m)
  | hoistedRight {op inner a b m} : op.commutesPast inner = true → b.isTarget target = true →
      m.var ≠ target →
      Contracts target (.binary op (.binary inner a b) (.monomial m))
        (.binary inner (.binary op a (.monomial m)) b)
  | hoistedSum {inner a b m} : inner.isAdditive = true → a.isTarget target = true →
      m.var ≠ target →
      Contracts target (.binary .add (.binary inner a b) (.monomial m))
        (.binary .add (.binary inner (.monomial m) b) a)
  | hoistedDifference {inner a b m} : inner.isAdditive = true → a.isTarget target = true →
      m.var ≠ target →
      Contracts target (.binary .sub (.binary inner a b) (.monomial m))
        (.binary .add (.binary inner (.negate (.monomial m)) b) a)
  | hoistedProduct {inner a b m} : inner.isMultiplicative = true → a.isTarget target = true →
      m.var ≠ target →
      Contracts target (.binary .mul (.binary inner a b) (.monomial m))
        (.binary .mul (.binary inner (.monomial m) b) a)

/-- The rule that fires at the root of a tree whose operands are already rewritten. -/
def contract? (target : String) : Expr α → Option (Event α × Expr α)
  | .monomial m => fired (monomialRule? m)
  | .negate e => fired (negationRule? e)
  | .binary op l r => binaryStep? target op l r
  | .number _ | .call _ _ | .constant _ _ => none

/-! ## What fires is a constructor -/

variable {target : String} {l r e' : Expr α} {rule : Rule} {ev : Event α}

theorem contracts_of_sumRule? (h : sumRule? l r = some (rule, e')) :
    Contracts target (.binary .add l r) e' := by
  unfold sumRule? at h
  split at h; · cases h; exact .zeroPlus ‹_›
  split at h; · cases h; exact .plusZero ‹_›
  split at h; · cases h; exact .plusSelf ‹_›
  split at h
  · cases h; exact .plusNegated
  · cases h

theorem contracts_of_differenceRule? (h : differenceRule? l r = some (rule, e')) :
    Contracts target (.binary .sub l r) e' := by
  unfold differenceRule? at h
  split at h; · cases h; exact .minusZero ‹_›
  split at h; · cases h; exact .zeroMinus ‹_›
  split at h; · cases h; exact .minusSelf ‹_›
  split at h
  · cases h; exact .minusNegated
  · cases h

theorem contracts_of_productRule? (h : productRule? l r = some (rule, e')) :
    Contracts target (.binary .mul l r) e' := by
  unfold productRule? at h
  split at h; · cases h; exact .oneTimes ‹_›
  split at h; · cases h; exact .timesOne ‹_›
  split at h; · cases h; exact .zeroTimes ‹_›
  split at h; · cases h; exact .timesZero ‹_›
  split at h; · cases h; exact .timesSelf ‹_›
  split at h
  · split at h
    · rename_i hrepeats hsame
      cases h; exact .timesPower hsame (by simpa using hrepeats)
    · cases h
  · split at h
    · cases h; exact .timesSum ‹_›
    · cases h
  · cases h; exact .timesMonomial
  · cases h

theorem contracts_of_quotientRule? (h : quotientRule? l r = some (rule, e')) :
    Contracts target (.binary .div l r) e' := by
  unfold quotientRule? at h
  split at h; · cases h; exact .overOne ‹_›
  split at h
  · cases h; exact .monomialOver
  · split at h
    · cases h; exact .overSelf ‹_›
    · cases h

theorem contracts_of_powerRule? (h : powerRule? l r = some (rule, e')) :
    Contracts target (.binary .pow l r) e' := by
  unfold powerRule? at h
  split at h; · cases h; exact .powerZero ‹_›
  split at h; · cases h; exact .powerOne ‹_›
  split at h
  · cases h; exact .powerNegated
  · cases h

theorem commutesPast_of_isAdditive (op inner : Operator) (h : op.isAdditive = true) :
    op.commutesPast inner = inner.isAdditive := by
  cases op with
  | add | sub => simp [Operator.commutesPast, Operator.isAdditive, Operator.isMultiplicative]
  | _ => cases h

theorem commutesPast_of_isMultiplicative (op inner : Operator) (h : op.isMultiplicative = true) :
    op.commutesPast inner = inner.isMultiplicative := by
  cases op with
  | mul | div => simp [Operator.commutesPast, Operator.isAdditive, Operator.isMultiplicative]
  | _ => cases h

theorem contracts_of_hoist? {op : Operator} {side : Side}
    (h : hoist? target op l r = some (side, e')) : Contracts target (.binary op l r) e' := by
  unfold hoist? at h
  split at h
  · rename_i inner a b m
    split at h; · cases h
    rename_i hguard
    simp only [Bool.or_eq_true, decide_eq_true_eq, Bool.not_eq_true', not_or,
      Bool.not_eq_false] at hguard
    obtain ⟨hm, hpast⟩ := hguard
    split at h; · cases h; exact .hoistedRight hpast ‹_› hm
    split at h
    · rename_i hleft
      obtain ⟨ha, hop⟩ := Bool.and_eq_true_iff.mp hleft
      -- the outer operator decides the sign and the operator that takes the target out
      cases op with
      | add =>
        rw [commutesPast_of_isAdditive .add inner rfl] at hpast
        cases h; exact .hoistedSum hpast ha hm
      | sub =>
        rw [commutesPast_of_isAdditive .sub inner rfl] at hpast
        cases h; exact .hoistedDifference hpast ha hm
      | mul =>
        rw [commutesPast_of_isMultiplicative .mul inner rfl] at hpast
        cases h; exact .hoistedProduct hpast ha hm
      | div | mod | pow | equals => exact absurd hop (by decide)
    · cases h
  · cases h

theorem contracts_of_distribute? {op : Operator} (h : distribute? target op l r = some (ev, e')) :
    Contracts target (.binary op l r) e' := by
  unfold distribute? at h
  split at h
  · obtain ⟨m, hm, he⟩ := Option.map_eq_some_iff.mp h
    cases he
    exact .merged hm
  · obtain ⟨⟨side, e⟩, hs, he⟩ := Option.map_eq_some_iff.mp h
    cases he
    exact contracts_of_hoist? hs

theorem contracts_of_binaryRule? {op : Operator} (h : binaryRule? op l r = some (rule, e')) :
    Contracts target (.binary op l r) e' := by
  cases op with
  | add => exact contracts_of_sumRule? h
  | sub => exact contracts_of_differenceRule? h
  | mul => exact contracts_of_productRule? h
  | div => exact contracts_of_quotientRule? h
  | pow => exact contracts_of_powerRule? h
  | mod | equals => cases h

theorem contracts_of_binaryStep? {op : Operator}
    (h : binaryStep? target op l r = some (ev, e')) : Contracts target (.binary op l r) e' := by
  unfold binaryStep? at h
  split at h; · cases h
  simp only [Option.orElse_eq_orElse, Option.orElse_eq_or, Option.or_eq_some_iff] at h
  rcases h with h | ⟨-, h⟩
  · obtain ⟨⟨rule, e⟩, hr, he⟩ := Option.map_eq_some_iff.mp h
    cases he
    exact contracts_of_binaryRule? hr
  · exact contracts_of_distribute? h

theorem contracts_of_negationRule? {e : Expr α} (h : negationRule? e = some (rule, e')) :
    Contracts target (.negate e) e' := by
  unfold negationRule? at h
  split at h
  · cases h; exact .negatedNegation
  · split at h
    · cases h; exact .negatedSum ‹_›
    · split at h
      · rename_i hop
        cases h; exact .negatedProduct (by simpa using hop)
      · cases h
  · cases h

theorem contracts_of_monomialRule? {m : Monomial α} (h : monomialRule? m = some (rule, e')) :
    Contracts target (.monomial m) e' := by
  unfold monomialRule? at h
  split at h; · cases h; exact .zeroCoefficient ‹_›
  split at h; · cases h; exact .zeroExponent ‹_›
  split at h
  · cases h; exact .negativeCoefficient ‹_›
  · cases h

/-- A rule that fires is one of the constructors. -/
theorem contracts_of_contract? {e : Expr α} (h : contract? target e = some (ev, e')) :
    Contracts target e e' := by
  cases e with
  | monomial m =>
    obtain ⟨⟨rule, e⟩, hr, he⟩ := Option.map_eq_some_iff.mp h
    cases he
    exact contracts_of_monomialRule? hr
  | negate e =>
    obtain ⟨⟨rule, e⟩, hr, he⟩ := Option.map_eq_some_iff.mp h
    cases he
    exact contracts_of_negationRule? hr
  | binary op l r => exact contracts_of_binaryStep? h
  | number _ | call _ _ | constant _ _ => cases h

/-! ## Where nothing fires, no constructor applies -/

theorem sumRule?_eq_none (h : sumRule? l r = none) :
    l.isLiteral 0 = false ∧ r.isLiteral 0 = false ∧ l.repeats r = false ∧
      ∀ b, r ≠ .negate b := by
  unfold sumRule? at h
  split at h; · cases h
  split at h; · cases h
  split at h; · cases h
  split at h
  · cases h
  · rename_i h0 h1 h2 _ h3
    exact ⟨by simpa using h0, by simpa using h1, by simpa using h2, h3⟩

theorem differenceRule?_eq_none (h : differenceRule? l r = none) :
    r.isLiteral 0 = false ∧ l.isLiteral 0 = false ∧ l.same r = false ∧ ∀ b, r ≠ .negate b := by
  unfold differenceRule? at h
  split at h; · cases h
  split at h; · cases h
  split at h; · cases h
  split at h
  · cases h
  · rename_i h0 h1 h2 _ h3
    exact ⟨by simpa using h0, by simpa using h1, by simpa using h2, h3⟩

theorem productRule?_eq_none (h : productRule? l r = none) :
    (l.isLiteral 1 = false ∧ r.isLiteral 1 = false ∧ l.isLiteral 0 = false ∧
      r.isLiteral 0 = false ∧ l.repeats r = false) ∧
    (∀ a b a' c, l = .binary .pow a b → r = .binary .pow a' c → a.same a' = false) ∧
    (∀ n op b c, l = .number n → r = .binary op b c → op.isAdditive = false) ∧
    ∀ n m, l = .number n → r ≠ .monomial m := by
  unfold productRule? at h
  split at h; · cases h
  split at h; · cases h
  split at h; · cases h
  split at h; · cases h
  split at h; · cases h
  rename_i h1 h2 h3 h4 h5
  refine ⟨⟨by simpa using h1, by simpa using h2, by simpa using h3, by simpa using h4,
    by simpa using h5⟩, ?_, ?_, ?_⟩
  · intro a b a' c hl hr
    subst hl hr
    simpa using h
  · intro n op b c hl hr
    subst hl hr
    simpa using h
  · intro n m hl hr
    subst hl hr
    simp at h

theorem quotientRule?_eq_none (h : quotientRule? l r = none) :
    r.isLiteral 1 = false ∧ (∀ m n, l = .monomial m → r ≠ .number n) ∧ l.same r = false := by
  unfold quotientRule? at h
  split at h; · cases h
  rename_i h1
  split at h
  · cases h
  · rename_i h2
    split at h; · cases h
    rename_i h3
    exact ⟨by simpa using h1, fun m n hl hr => h2 m n hl hr, by simpa using h3⟩

theorem powerRule?_eq_none (h : powerRule? l r = none) :
    r.isLiteral 0 = false ∧ r.isLiteral 1 = false ∧ ∀ n, r ≠ .negate (.number n) := by
  unfold powerRule? at h
  split at h; · cases h
  split at h; · cases h
  split at h
  · cases h
  · rename_i h0 h1 _ h2
    exact ⟨by simpa using h0, by simpa using h1, h2⟩

theorem contract?_negate_eq_none {e : Expr α} (h : contract? target (.negate e) = none) :
    (∀ a, e ≠ .negate a) ∧ ∀ op l r, e = .binary op l r →
      op.isAdditive = false ∧ op.isMultiplicative = false ∧ op ≠ .mod := by
  have h := Option.map_eq_none_iff.mp h
  unfold negationRule? at h
  split at h
  · cases h
  · split at h; · cases h
    split at h; · cases h
    rename_i h0 h1
    refine ⟨by simp, ?_⟩
    intro op l r hop
    cases hop
    simpa using And.intro h0 h1
  · rename_i h0 h1
    exact ⟨fun a => h0 a, fun op l r he => absurd he (h1 op l r)⟩

theorem contract?_monomial_eq_none {m : Monomial α} (h : contract? target (.monomial m) = none) :
    Scalar.eqv m.coefficient (Scalar.natural 0) = false ∧
      Scalar.eqv m.exponent (Scalar.natural 0) = false ∧
      Scalar.isNegative m.coefficient = false := by
  have h := Option.map_eq_none_iff.mp h
  unfold monomialRule? at h
  split at h; · cases h
  split at h; · cases h
  split at h; · cases h
  rename_i h0 h1 h2
  exact ⟨by simpa using h0, by simpa using h1, by simpa using h2⟩

/-- An operation other than `=` at which nothing fires has no rule of its operator and nothing to
distribute. -/
theorem contract?_binary_eq_none {op : Operator} (h : contract? target (.binary op l r) = none)
    (hop : op ≠ .equals) : binaryRule? op l r = none ∧ distribute? target op l r = none := by
  rw [contract?] at h
  unfold binaryStep? at h
  split at h; · exact absurd rfl hop
  simpa [fired] using h

theorem merge?_equals (a b : Monomial α) : a.merge? .equals b = none := by
  unfold Monomial.merge?; split <;> rfl

theorem commutesPast_equals (inner : Operator) : Operator.equals.commutesPast inner = false := by
  cases inner <;> rfl

/-- A monomial of the target on either side of the inner operation is moved out. -/
theorem hoist?_ne_none {op inner : Operator} {a b : Expr α} {m : Monomial α}
    (hpast : op.commutesPast inner = true) (hm : m.var ≠ target)
    (h : b.isTarget target = true ∨
      a.isTarget target = true ∧ (op.isAdditive || op == .mul) = true) :
    distribute? target op (.binary inner a b) (.monomial m) ≠ none := by
  have hguard : ¬ (m.var = target || !op.commutesPast inner) = true := by simp [hpast, hm]
  simp only [distribute?, hoist?, if_neg hguard]
  by_cases hb : b.isTarget target = true
  · simp [hb]
  · obtain ⟨ha, hop⟩ := h.resolve_left hb
    simp [hb, ha, hop]

/-- Where no rule fires at a node, no constructor applies there. -/
theorem not_contracts {e : Expr α} (h : contract? target e = none) : ¬ Contracts target e e' := by
  intro hc
  cases hc with
  | zeroPlus hg | plusZero hg | plusSelf hg =>
    obtain ⟨h0, h1, h2, -⟩ := sumRule?_eq_none (contract?_binary_eq_none h (by decide)).1
    simp_all
  | plusNegated =>
    obtain ⟨-, -, -, h3⟩ := sumRule?_eq_none (contract?_binary_eq_none h (by decide)).1
    exact h3 _ rfl
  | minusZero hg | zeroMinus hg | minusSelf hg =>
    obtain ⟨h0, h1, h2, -⟩ := differenceRule?_eq_none (contract?_binary_eq_none h (by decide)).1
    simp_all
  | minusNegated =>
    obtain ⟨-, -, -, h3⟩ := differenceRule?_eq_none (contract?_binary_eq_none h (by decide)).1
    exact h3 _ rfl
  | oneTimes hg | timesOne hg | zeroTimes hg | timesZero hg | timesSelf hg =>
    obtain ⟨⟨h1, h2, h3, h4, h5⟩, -⟩ :=
      productRule?_eq_none (contract?_binary_eq_none h (by decide)).1
    simp_all
  | timesPower hg _ =>
    obtain ⟨-, h6, -⟩ := productRule?_eq_none (contract?_binary_eq_none h (by decide)).1
    rw [h6 _ _ _ _ rfl rfl] at hg; cases hg
  | timesSum hg =>
    obtain ⟨-, -, h7, -⟩ := productRule?_eq_none (contract?_binary_eq_none h (by decide)).1
    rw [h7 _ _ _ _ rfl rfl] at hg; cases hg
  | timesMonomial =>
    obtain ⟨-, -, -, h8⟩ := productRule?_eq_none (contract?_binary_eq_none h (by decide)).1
    exact h8 _ _ rfl rfl
  | overOne hg | overSelf hg =>
    obtain ⟨h1, -, h3⟩ := quotientRule?_eq_none (contract?_binary_eq_none h (by decide)).1
    simp_all
  | monomialOver =>
    obtain ⟨-, h2, -⟩ := quotientRule?_eq_none (contract?_binary_eq_none h (by decide)).1
    exact h2 _ _ rfl rfl
  | powerZero hg | powerOne hg =>
    obtain ⟨h0, h1, -⟩ := powerRule?_eq_none (contract?_binary_eq_none h (by decide)).1
    simp_all
  | powerNegated =>
    obtain ⟨-, -, h2⟩ := powerRule?_eq_none (contract?_binary_eq_none h (by decide)).1
    exact h2 _ rfl
  | zeroCoefficient hg | zeroExponent hg | negativeCoefficient hg =>
    obtain ⟨h0, h1, h2⟩ := contract?_monomial_eq_none h
    simp_all
  | negatedNegation => exact (contract?_negate_eq_none h).1 _ rfl
  | negatedSum hg =>
    have := (contract?_negate_eq_none h).2 _ _ _ rfl
    simp_all
  | negatedProduct hg =>
    have := (contract?_negate_eq_none h).2 _ _ _ rfl
    simp_all
  | @merged op a b m hm =>
    have hop : op ≠ .equals := by
      intro hop
      rw [hop, merge?_equals] at hm
      cases hm
    have := (contract?_binary_eq_none h hop).2
    simp [distribute?, hm] at this
  | @hoistedRight op inner a b m hpast hb hne =>
    have hop : op ≠ .equals := by
      intro hop
      rw [hop, commutesPast_equals] at hpast
      cases hpast
    exact hoist?_ne_none hpast hne (.inl hb) (contract?_binary_eq_none h hop).2
  | hoistedSum hin ha hne =>
    have hpast := (commutesPast_of_isAdditive .add _ rfl).trans hin
    exact hoist?_ne_none hpast hne (.inr ⟨ha, rfl⟩) (contract?_binary_eq_none h (by decide)).2
  | hoistedDifference hin ha hne =>
    have hpast := (commutesPast_of_isAdditive .sub _ rfl).trans hin
    exact hoist?_ne_none hpast hne (.inr ⟨ha, rfl⟩) (contract?_binary_eq_none h (by decide)).2
  | hoistedProduct hin ha hne =>
    have hpast := (commutesPast_of_isMultiplicative .mul _ rfl).trans hin
    exact hoist?_ne_none hpast hne (.inr ⟨ha, rfl⟩) (contract?_binary_eq_none h (by decide)).2

end SymbolicAlgebra.Expr
