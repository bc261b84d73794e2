import SymbolicAlgebra.Proofs.Rewrite.Measure

/-!
# Rules make no new names

`count f e` is how many nodes of a tree `f` marks. Where `f` marks no literal,
no negation and no operation other than `=`, and tells monomials apart by their
variables and calls by their names and counts of arguments, no rule raises the
count: a tree never gains a variable, a constant, a call or an equation.

Results:
* `Marks.contracts`, `Marks.collapses`: a rule and an operation on literals
  raise no count.
* `count_pass_le`, `count_fold_le`: nor does a pass or a folding.
* `targets_eq_count`: the monomials of the target are such a count.
* `MonomialFree.pass`, `MonomialFree.fold`: where no monomial stands, none comes.
* `mem_symbols_iff_count`: whether a symbol occurs is such a count.
* `exists_fold_eq_ok`: where no `=` stands, folding succeeds.
-/
namespace SymbolicAlgebra.Expr

variable {α : Type} {f : Expr α → Bool} {target : String} {e e' l r : Expr α}

/-- The count of the nodes that `f` marks. -/
def count (f : Expr α → Bool) (e : Expr α) : Nat := e.subtrees.countP f

/-- What a mark looks at. -/
structure Marks (f : Expr α → Bool) : Prop where
  number : ∀ x, f (.number x) = false
  negate : ∀ e, f (.negate e) = false
  binary : ∀ op l r, op ≠ .equals → f (.binary op l r) = false
  equals : ∀ l r l' r', f (.binary .equals l r) = f (.binary .equals l' r')
  call : ∀ name as bs, as.length = bs.length → f (.call name as) = f (.call name bs)
  monomial : ∀ m n : Monomial α, m.var = n.var → f (.monomial m) = f (.monomial n)

/-! ## Counts of a node and of its operands -/

theorem count_monomial (m : Monomial α) :
    count f (.monomial m) = if f (.monomial m) then 1 else 0 := by
  simp [count, subtrees, List.countP_cons]

theorem count_binary_eq (op : Operator) (l r : Expr α) : count f (.binary op l r) =
    count f l + count f r + if f (.binary op l r) then 1 else 0 := by
  simp [count, subtrees, List.countP_cons]

theorem count_call (name : String) (args : List (Expr α)) : count f (.call name args) =
    (args.map (count f)).sum + if f (.call name args) then 1 else 0 := by
  have hlist : (args.flatMap subtrees).countP f = (args.map (count f)).sum := by
    rw [List.countP_flatMap]; rfl
  rw [count, subtrees, subtreesAll_eq_flatMap, List.countP_cons, hlist]

namespace Marks

theorem count_number (h : Marks f) (x : α) : count f (.number x) = 0 := by
  simp [count, subtrees, h.number]

theorem count_negate (h : Marks f) (e : Expr α) : count f (.negate e) = count f e := by
  simp [count, subtrees, h.negate]

theorem count_binary (h : Marks f) {op : Operator} (hop : op ≠ .equals) (l r : Expr α) :
    count f (.binary op l r) = count f l + count f r := by
  rw [count_binary_eq, h.binary op l r hop]; rfl

/-- Only the variable of a monomial is counted. -/
theorem count_monomial_eq (h : Marks f) {m n : Monomial α} (hvar : m.var = n.var) :
    count f (.monomial m) = count f (.monomial n) := by
  rw [count_monomial, count_monomial, h.monomial m n hvar]

theorem count_rescaled (h : Marks f) (m : Monomial α) (c : α) :
    count f (.monomial { m with coefficient := c }) = count f (.monomial m) :=
  h.count_monomial_eq rfl

end Marks

/-! ## One step -/

theorem ne_equals_of_isAdditive {op : Operator} (h : op.isAdditive = true) : op ≠ .equals := by
  rintro rfl; cases h

theorem ne_equals_of_isMultiplicative {op : Operator} (h : op.isMultiplicative = true) :
    op ≠ .equals := by
  rintro rfl; cases h

theorem ne_equals_of_commutesPast {op inner : Operator} (h : op.commutesPast inner = true) :
    op ≠ .equals ∧ inner ≠ .equals := by
  rcases Bool.or_eq_true_iff.mp h with h | h
  · obtain ⟨hop, hin⟩ := Bool.and_eq_true_iff.mp h
    exact ⟨ne_equals_of_isAdditive hop, ne_equals_of_isAdditive hin⟩
  · obtain ⟨hop, hin⟩ := Bool.and_eq_true_iff.mp h
    exact ⟨ne_equals_of_isMultiplicative hop, ne_equals_of_isMultiplicative hin⟩

theorem var_of_merge? [Scalar α] {op : Operator} {m n k : Monomial α}
    (h : m.merge? op n = some k) : op ≠ .equals ∧ k.var = m.var := by
  unfold Monomial.merge? at h
  split at h; · cases h
  split at h
  · split at h <;> cases h; exact ⟨by decide, rfl⟩
  · split at h <;> cases h; exact ⟨by decide, rfl⟩
  · cases h; exact ⟨by decide, rfl⟩
  · cases h

namespace Marks

/-- What raises no count at one place raises none in the whole tree. -/
theorem within (h : Marks f) {R : Expr α → Expr α → Prop}
    (hR : ∀ a b, R a b → count f b ≤ count f a) (hw : Within R e e') :
    count f e' ≤ count f e := by
  induction hw with
  | root hr => exact hR _ _ hr
  | negate _ ih => rw [h.count_negate, h.count_negate]; exact ih
  | @left op a b r _ ih =>
    by_cases hop : op = .equals
    · subst hop
      rw [count_binary_eq, count_binary_eq, h.equals a r b r]; omega
    · rw [h.count_binary hop, h.count_binary hop]; omega
  | @right op l a b _ ih =>
    by_cases hop : op = .equals
    · subst hop
      rw [count_binary_eq, count_binary_eq, h.equals l a l b]; omega
    · rw [h.count_binary hop, h.count_binary hop]; omega
  | @argument name before a b after _ ih =>
    have hlen : (before ++ a :: after).length = (before ++ b :: after).length := by simp
    rw [count_call, count_call, h.call name _ _ hlen]
    simp only [List.map_append, List.map_cons, List.sum_append, List.sum_cons]; omega

/-- What raises no count in one step raises none in a sequence of steps. -/
theorem steps {R : Expr α → Expr α → Prop} (hR : ∀ a b, R a b → count f b ≤ count f a)
    (hs : Relation.ReflTransGen R e e') : count f e' ≤ count f e := by
  induction hs with
  | refl => exact Nat.le_refl _
  | tail _ hstep ih => exact (hR _ _ hstep).trans ih

end Marks

section
variable [Scalar α]

namespace Marks

theorem count_literal (h : Marks f) (n : Nat) : count f (literal n) = 0 := h.count_number _

/-- A rule raises no count. -/
theorem contracts (h : Marks f) (hc : Contracts target e e') : count f e' ≤ count f e := by
  have hadd := h.count_binary (show Operator.add ≠ .equals by decide)
  have hsub := h.count_binary (show Operator.sub ≠ .equals by decide)
  have hmul := h.count_binary (show Operator.mul ≠ .equals by decide)
  have hdiv := h.count_binary (show Operator.div ≠ .equals by decide)
  have hpow := h.count_binary (show Operator.pow ≠ .equals by decide)
  cases hc with
  | zeroPlus _ | plusZero _ => rw [hadd]; omega
  | plusSelf _ => rw [hadd, hmul, h.count_literal]; omega
  | plusNegated => rw [hadd, hsub, h.count_negate]
  | minusZero _ => rw [hsub]; omega
  | zeroMinus _ => rw [hsub, h.count_negate]; omega
  | minusNegated => rw [hadd, hsub, h.count_negate]
  | oneTimes _ | timesOne _ => rw [hmul]; omega
  | minusSelf _ | zeroTimes _ | timesZero _ | overSelf _ | powerZero _ | zeroCoefficient _
  | zeroExponent _ => rw [h.count_literal]; omega
  | timesSelf _ => rw [hmul, hpow, h.count_literal]; omega
  | timesPower _ _ => rw [hmul, hpow, hpow, hpow, hadd]; omega
  | timesSum hop =>
    have hbin := h.count_binary (ne_equals_of_isAdditive hop)
    rw [hbin, hmul, hmul, hmul, hbin, h.count_number]; omega
  | @timesMonomial n m => rw [hmul, h.count_rescaled m _]; omega
  | overOne _ => rw [hdiv]; omega
  | @monomialOver m n => rw [hdiv, h.count_rescaled m _]; omega
  | powerOne _ => rw [hpow]; omega
  | powerNegated => rw [hdiv, hpow, hpow, h.count_literal, h.count_negate]; omega
  | @negativeCoefficient m _ => rw [h.count_negate, h.count_rescaled m _]
  | negatedNegation => rw [h.count_negate, h.count_negate]
  | negatedSum hop =>
    have hbin := h.count_binary (ne_equals_of_isAdditive hop)
    rw [h.count_negate, hbin, hbin, h.count_negate, h.count_negate]
  | @negatedProduct op _ _ hop =>
    have hne : op ≠ .equals := by
      rcases hop with hop | rfl
      · exact ne_equals_of_isMultiplicative hop
      · decide
    rw [h.count_negate, h.count_binary hne, h.count_binary hne, h.count_negate]
  | merged hm =>
    obtain ⟨hop, hvar⟩ := var_of_merge? hm
    rw [h.count_binary hop, h.count_monomial_eq hvar]; omega
  | hoistedRight hpast _ _ =>
    obtain ⟨hop, hin⟩ := ne_equals_of_commutesPast hpast
    rw [h.count_binary hin, h.count_binary hop, h.count_binary hop, h.count_binary hin]; omega
  | hoistedSum hin _ _ =>
    have hbin := h.count_binary (ne_equals_of_isAdditive hin)
    rw [hadd, hbin, hadd, hbin]; omega
  | hoistedDifference hin _ _ =>
    have hbin := h.count_binary (ne_equals_of_isAdditive hin)
    rw [hadd, hbin, hsub, hbin, h.count_negate]; omega
  | hoistedProduct hin _ _ =>
    have hbin := h.count_binary (ne_equals_of_isMultiplicative hin)
    rw [hmul, hbin, hmul, hbin]; omega

/-- Two literals replaced by one raise no count. -/
theorem collapses (h : Marks f) (hc : Collapses e e') : count f e' ≤ count f e := by
  cases hc with
  | literals _ _ => rw [h.count_number]; omega

/-! ## Whole passes and foldings -/

/-- A pass raises no count. -/
theorem count_pass_le (h : Marks f) (target : String) (e : Expr α) :
    count f (pass target e).value ≤ count f e := by
  rcases pass_progress target e with hp | ⟨-, hsteps⟩
  · rw [hp]; exact Nat.le_refl _
  · exact steps (fun _ _ => h.within fun _ _ => h.contracts) hsteps.to_reflTransGen

/-- A folding raises no count. -/
theorem count_fold_le (h : Marks f) (hf : fold e = .ok e') : count f e' ≤ count f e :=
  steps (fun _ _ => h.within fun _ _ => h.collapses) (fold_collapses hf)

end Marks
end

/-! ## Monomials of a variable -/

theorem marks_isTarget (target : String) : Marks (isTarget (α := α) target) where
  number _ := rfl
  negate _ := rfl
  binary _ _ _ _ := rfl
  equals _ _ _ _ := rfl
  call _ _ _ _ := rfl
  monomial m n h := by simp [isTarget, h]

theorem targetsAll_eq_sum : ∀ es : List (Expr α),
    targetsAll target es = (es.map (targets target)).sum
  | [] => rfl
  | e :: es => by rw [targetsAll, targetsAll_eq_sum es, List.map_cons, List.sum_cons]

/-- The monomials of the target are counted by marking them. -/
theorem targets_eq_count (target : String) (e : Expr α) :
    e.targets target = count (isTarget target) e := by
  have hmarks := marks_isTarget (α := α) target
  induction e with
  | number x => rw [hmarks.count_number]; rfl
  | constant name x => rfl
  | monomial m => simp [targets, count_monomial, isTarget]
  | negate e ih => rw [hmarks.count_negate]; exact ih
  | binary op l r ihl ihr => simp [targets, count_binary_eq, isTarget, ihl, ihr]
  | call name args ih =>
    rw [targets, targetsAll_eq_sum, count_call, List.map_congr_left ih]
    rfl

/-- A pass makes no monomial of any variable. -/
theorem targets_pass_le [Scalar α] (target name : String) (e : Expr α) :
    (pass target e).value.targets name ≤ e.targets name := by
  rw [targets_eq_count, targets_eq_count]
  exact (marks_isTarget name).count_pass_le target e

theorem targets_fold_le [Scalar α] {name : String} (h : fold e = .ok e') :
    e'.targets name ≤ e.targets name := by
  rw [targets_eq_count, targets_eq_count]
  exact (marks_isTarget name).count_fold_le h

/-! ## Names -/

/-- A name with what it stands for. -/
inductive Symbol
  | var (name : String)
  | constant (name : String)
  | function (name : String)
deriving DecidableEq, Repr

/-- The symbol at the root of a tree. -/
def symbol? : Expr α → Option Symbol
  | .monomial m => some (.var m.var)
  | .constant name _ => some (.constant name)
  | .call name _ => some (.function name)
  | _ => none

/-- The symbols that occur in a tree. -/
def symbols (e : Expr α) : List Symbol := e.subtrees.filterMap symbol?

theorem marks_symbol (s : Symbol) : Marks fun e : Expr α => e.symbol? = some s where
  number _ := rfl
  negate _ := rfl
  binary _ _ _ _ := rfl
  equals _ _ _ _ := rfl
  call _ _ _ _ := rfl
  monomial m n h := by simp [symbol?, h]

/-- A symbol occurs if the nodes with it are more than none. -/
theorem mem_symbols_iff_count {s : Symbol} :
    s ∈ e.symbols ↔ 0 < count (fun e => e.symbol? = some s) e := by
  simp [symbols, count, List.countP_pos_iff]

/-! ## Trees without monomials -/

theorem marks_isMonomial : Marks (isMonomial (α := α)) where
  number _ := rfl
  negate _ := rfl
  binary _ _ _ _ := rfl
  equals _ _ _ _ := rfl
  call _ _ _ _ := rfl
  monomial _ _ _ := rfl

/-- No monomial stands in a tree. -/
def MonomialFree (e : Expr α) : Prop := ∀ s ∈ e.subtrees, s.isMonomial = false

theorem monomialFree_iff_count : e.MonomialFree ↔ count isMonomial e = 0 := by
  simp [MonomialFree, count, List.countP_eq_zero]

/-- A pass makes no monomial. -/
theorem MonomialFree.pass [Scalar α] (h : MonomialFree e) (target : String) :
    MonomialFree (Expr.pass target e).value := by
  have hle := marks_isMonomial.count_pass_le target e
  rw [monomialFree_iff_count] at h ⊢
  omega

theorem MonomialFree.fold [Scalar α] (h : MonomialFree e) (hf : Expr.fold e = .ok e') :
    MonomialFree e' := by
  have hle := marks_isMonomial.count_fold_le hf
  rw [monomialFree_iff_count] at h ⊢
  omega

/-! ## Equations -/

theorem marks_isEquation : Marks (isEquation (α := α)) where
  number _ := rfl
  negate _ := rfl
  binary op _ _ h := by cases op <;> first | rfl | exact absurd rfl h
  equals _ _ _ _ := rfl
  call _ _ _ _ := rfl
  monomial _ _ _ := rfl

/-- No `=` stands in a tree. -/
def EqualityFree (e : Expr α) : Prop := ∀ s ∈ e.subtrees, s.isEquation = false

instance (e : Expr α) : Decidable e.EqualityFree :=
  inferInstanceAs (Decidable (∀ s ∈ e.subtrees, s.isEquation = false))

theorem equalityFree_iff_count : e.EqualityFree ↔ count isEquation e = 0 := by
  simp [EqualityFree, count, List.countP_eq_zero]

theorem equalityFree_binary {op : Operator} :
    (binary op l r).EqualityFree ↔ op ≠ .equals ∧ l.EqualityFree ∧ r.EqualityFree := by
  have hroot : (binary op l r).isEquation = false ↔ op ≠ .equals := by
    cases op <;> simp [isEquation]
  rw [EqualityFree, forall_subtrees_binary, hroot]
  rfl

theorem foldBinary_of_ne_equals [Scalar α] {op : Operator} (hop : op ≠ .equals) (l r : Expr α) :
    ∃ e', foldBinary op l r = .ok e' := by
  unfold foldBinary
  split
  · cases op with
    | equals => exact absurd rfl hop
    | _ => exact ⟨_, rfl⟩
  · exact ⟨_, rfl⟩

/-- Where no `=` stands, folding succeeds. -/
theorem exists_fold_eq_ok [Scalar α] (h : e.EqualityFree) : ∃ e', fold e = .ok e' := by
  induction e with
  | number x | constant name x | monomial m => exact ⟨_, rfl⟩
  | negate e ih =>
    obtain ⟨a, ha⟩ := ih (forall_subtrees_negate.mp h).2
    exact ⟨_, fold_negate_eq_ok.mpr ⟨a, ha, rfl⟩⟩
  | binary op l r ihl ihr =>
    obtain ⟨hop, hl, hr⟩ := equalityFree_binary.mp h
    obtain ⟨a, ha⟩ := ihl hl
    obtain ⟨b, hb⟩ := ihr hr
    obtain ⟨e', he⟩ := foldBinary_of_ne_equals hop a b
    exact ⟨e', fold_binary_eq_ok.mpr ⟨a, ha, b, hb, he⟩⟩
  | call name args ih =>
    have hargs := (forall_subtrees_call.mp h).2
    obtain ⟨as, has⟩ := exists_mapM_eq_ok.mpr fun e he => ih e he (hargs e he)
    exact ⟨_, fold_call_eq_ok.mpr ⟨as, except_mapM_eq_ok.mp has, rfl⟩⟩

end SymbolicAlgebra.Expr
