import SymbolicAlgebra.Proofs.Evaluation.Defined
import SymbolicAlgebra.Proofs.Exact.Denote

/-!
# Remainders with and without their sign

The evaluator takes a remainder without its sign. Folding keeps the sign, which
is the sign of the dividend, and a rule moves a negation into the dividend. So
a tree has two readings, and the simplifier keeps the signed one. The two agree
on a tree whose evaluation takes no negative remainder.

Results:
* `denote_value`: an evaluation that rounds nothing gives the unsigned reading.
* `evaluated_eq_signed`: where the two readings agree.
* `simplify_arithmetic`: if neither the tree nor what the simplifier makes of it
  takes a negative remainder, and nothing is rounded, the evaluator gives both
  the same value.
* `simplify_arithmetic_sign`: otherwise it need not.
-/
namespace SymbolicAlgebra

open Denotes (denote)

namespace Expr

section
variable {α K : Type} [Elementary α] [Field K] [LinearOrder K] [FloorRing K] [PartialPower K]
variable [Denotes α K]

/-- Sums, differences, products, remainders and negations of numbers. -/
def Arithmetic : Expr α → Prop
  | .number x => ∃ a, (denote x).get? = some a
  | .negate e => Arithmetic e
  | .binary .add l r | .binary .sub l r | .binary .mul l r | .binary .mod l r =>
    Arithmetic l ∧ Arithmetic r
  | _ => False

/-- No remainder that evaluating a tree takes is one of a division by zero. -/
def NonzeroDivisors (e : Expr α) : Prop :=
  ∀ l r, .binary .mod l r ∈ e.subtrees → ∀ y, r.value = .ok y → (denote y).get? ≠ some 0

/-- No remainder that evaluating a tree takes is negative before its sign is dropped. -/
def NonnegRemainders (e : Expr α) : Prop :=
  ∀ l r, .binary .mod l r ∈ e.subtrees → ∀ x y c, l.value = .ok x → r.value = .ok y →
    (Exact.zip Exact.remainder? (denote x) (denote y)).get? = some c → 0 ≤ c

/-- No operation that evaluating a tree carries out is rounded. -/
structure EvaluatesExactly (e : Expr α) : Prop where
  negate : ∀ a, .negate a ∈ e.subtrees → ∀ x, a.value = .ok x →
    denote (Scalar.neg x) = Scalar.neg (denote x)
  binary : ∀ op l r, .binary op l r ∈ e.subtrees → ∀ x y z, l.value = .ok x → r.value = .ok y →
    op.value x y = .ok z → denote z =
      Exact.zip (op.meaning? fun a b => (Exact.remainder? a b).map (|·|)) (denote x) (denote y)

variable {e l r : Expr α} {op : Operator}

/-! ## Parts of a tree -/

theorem nonzeroDivisors_negate : NonzeroDivisors (.negate e) ↔ NonzeroDivisors e := by
  simp [NonzeroDivisors, subtrees]

theorem nonzeroDivisors_binary : NonzeroDivisors (.binary op l r) ↔
    (op = .mod → ∀ y, r.value = .ok y → (denote y).get? ≠ some 0) ∧
      NonzeroDivisors l ∧ NonzeroDivisors r := by
  simp [NonzeroDivisors, subtrees, or_imp, forall_and, eq_comm]

theorem nonnegRemainders_number (x : α) : NonnegRemainders (.number x) := by
  simp [NonnegRemainders, subtrees]

theorem nonnegRemainders_negate : NonnegRemainders (.negate e) ↔ NonnegRemainders e := by
  simp [NonnegRemainders, subtrees]

theorem nonnegRemainders_binary : NonnegRemainders (.binary op l r) ↔
    (op = .mod → ∀ x y c, l.value = .ok x → r.value = .ok y →
      (Exact.zip Exact.remainder? (denote x) (denote y)).get? = some c → 0 ≤ c) ∧
      NonnegRemainders l ∧ NonnegRemainders r := by
  simp [NonnegRemainders, subtrees, or_imp, forall_and, eq_comm]

theorem evaluatesExactly_number (x : α) : EvaluatesExactly (.number x) :=
  ⟨by simp [subtrees], by simp [subtrees]⟩

theorem evaluatesExactly_negate : EvaluatesExactly (.negate e) ↔
    (∀ x, e.value = .ok x → denote (Scalar.neg x) = Scalar.neg (denote x)) ∧
      EvaluatesExactly e := by
  constructor
  · intro h
    have hinner : EvaluatesExactly e :=
      ⟨fun a hmem => h.negate a (by simp [subtrees, hmem]), forall_operations_negate.mp h.binary⟩
    exact ⟨h.negate e (self_mem_subtrees _), hinner⟩
  · intro h
    obtain ⟨hroot, hinner⟩ := h
    refine ⟨?_, forall_operations_negate.mpr hinner.binary⟩
    intro a hmem
    have hcases : a = e ∨ .negate a ∈ e.subtrees := by simpa [subtrees] using hmem
    rcases hcases with rfl | hmem
    · exact hroot
    · exact hinner.negate a hmem

theorem evaluatesExactly_binary : EvaluatesExactly (.binary op l r) ↔
    (∀ x y z, l.value = .ok x → r.value = .ok y → op.value x y = .ok z → denote z =
      Exact.zip (op.meaning? fun a b => (Exact.remainder? a b).map (|·|)) (denote x) (denote y)) ∧
      EvaluatesExactly l ∧ EvaluatesExactly r := by
  constructor
  · intro h
    obtain ⟨hroot, hl, hr⟩ := forall_operations_binary.mp h.binary
    exact ⟨hroot, ⟨fun a hmem => h.negate a (by simp [subtrees, hmem]), hl⟩,
      ⟨fun a hmem => h.negate a (by simp [subtrees, hmem]), hr⟩⟩
  · intro h
    obtain ⟨hroot, hl, hr⟩ := h
    refine ⟨?_, forall_operations_binary.mpr ⟨hroot, hl.binary, hr.binary⟩⟩
    intro a hmem
    have hcases : .negate a ∈ l.subtrees ∨ .negate a ∈ r.subtrees := by
      simpa [subtrees] using hmem
    rcases hcases with hmem | hmem
    · exact hl.negate a hmem
    · exact hr.negate a hmem

theorem Arithmetic.quotientFree (h : Arithmetic e) : QuotientFree e := by
  induction e with
  | number _ => trivial
  | negate e ih =>
    have hfree : QuotientFree e := ih h
    exact hfree
  | binary op l r ihl ihr =>
    cases op with
    | add | sub | mul | mod => exact ⟨trivial, ihl h.1, ihr h.2⟩
    | _ => cases h
  | call _ _ | constant _ _ | monomial _ => cases h

theorem Arithmetic.monomialFree (h : Arithmetic e) : MonomialFree e := by
  induction e with
  | number _ => exact forall_subtrees_number.mpr rfl
  | negate e ih => exact forall_subtrees_negate.mpr ⟨rfl, ih h⟩
  | binary op l r ihl ihr =>
    cases op with
    | add | sub | mul | mod => exact forall_subtrees_binary.mpr ⟨rfl, ihl h.1, ihr h.2⟩
    | _ => cases h
  | call _ _ | constant _ _ | monomial _ => cases h

end
end Expr

namespace Interpretation

open SymbolicAlgebra.Expr

variable {K : Type} [Field K] [LinearOrder K] [FloorRing K]

/-! ## The two readings -/

/-- Folding's reading of a tree without variables: remainders have a sign. -/
def signed : Interpretation K := ofAssignment fun _ => 0

/-- The evaluator's reading: remainders have none. -/
def evaluated : Interpretation K :=
  { signed with remainder? := fun a b => (Exact.remainder? a b).map (|·|) }

variable [PartialPower K] {α : Type} [Elementary α] [Denotes α K]
variable {e t r : Expr α}

/-- An evaluation that rounds nothing gives the unsigned reading of a tree. -/
theorem denote_value (he : QuotientFree e) (hm : MonomialFree e) (hexact : EvaluatesExactly e) :
    ∃ x, e.value = .ok x ∧ denote x = ⟨evaluated.value (e.map denote)⟩ := by
  induction e with
  | number x => exact ⟨x, rfl, rfl⟩
  | negate e ih =>
    have hinner : QuotientFree e := he
    obtain ⟨hneg, hexacti⟩ := evaluatesExactly_negate.mp hexact
    obtain ⟨x, hx, hdenote⟩ := ih hinner (forall_subtrees_negate.mp hm).2 hexacti
    refine ⟨Scalar.neg x, by rw [Expr.value, hx]; rfl, ?_⟩
    rw [hneg x hx, hdenote, Expr.map, value]
    cases evaluated.value (e.map denote) <;> rfl
  | binary op l r ihl ihr =>
    obtain ⟨hop, hl, hr⟩ := he
    obtain ⟨-, hml, hmr⟩ := forall_subtrees_binary.mp hm
    obtain ⟨hroot, hexactl, hexactr⟩ := evaluatesExactly_binary.mp hexact
    obtain ⟨x, hx, hdx⟩ := ihl hl hml hexactl
    obtain ⟨y, hy, hdy⟩ := ihr hr hmr hexactr
    have hne : op ≠ .equals := by
      rintro rfl
      exact hop
    obtain ⟨z, hz⟩ := Operator.exists_value hne x y
    refine ⟨z, by rw [Expr.value, if_neg hne, hx, hy]; exact hz, ?_⟩
    rw [hroot x y z hx hy hz, hdx, hdy, Expr.map, value]
    rfl
  | monomial m => cases hm _ (self_mem_subtrees _)
  | call _ _ | constant _ _ => exact he.elim

/-- Arithmetic that divides by no zero has a value. -/
theorem exists_value_arithmetic (ht : Arithmetic t) (hdiv : NonzeroDivisors t)
    (hexact : EvaluatesExactly t) : ∃ v, evaluated.value (t.map denote) = some v := by
  induction t with
  | number x =>
    obtain ⟨a, ha⟩ := ht
    exact ⟨a, ha⟩
  | negate e ih =>
    obtain ⟨a, ha⟩ := ih ht (nonzeroDivisors_negate.mp hdiv) (evaluatesExactly_negate.mp hexact).2
    exact ⟨-a, value_negate.mpr ⟨a, ha, rfl⟩⟩
  | binary op l r ihl ihr =>
    obtain ⟨hroot, hdivl, hdivr⟩ := nonzeroDivisors_binary.mp hdiv
    obtain ⟨-, hexactl, hexactr⟩ := evaluatesExactly_binary.mp hexact
    cases op with
    | add | sub | mul =>
      obtain ⟨a, ha⟩ := ihl ht.1 hdivl hexactl
      obtain ⟨b, hb⟩ := ihr ht.2 hdivr hexactr
      exact ⟨_, value_binary.mpr ⟨a, b, ha, hb, rfl⟩⟩
    | mod =>
      obtain ⟨a, ha⟩ := ihl ht.1 hdivl hexactl
      obtain ⟨b, hb⟩ := ihr ht.2 hdivr hexactr
      obtain ⟨y, hy, hdy⟩ := denote_value ht.2.quotientFree ht.2.monomialFree hexactr
      have hb0 : b ≠ 0 := by
        rintro rfl
        exact hroot rfl y hy (by rw [hdy, hb])
      obtain ⟨c, hc⟩ : ∃ c, Exact.remainder? a b = some c := ⟨_, if_neg hb0⟩
      have habs : (Exact.remainder? a b).map (|·|) = some |c| := by rw [hc, Option.map_some]
      exact ⟨|c|, value_binary.mpr ⟨a, b, ha, hb, habs⟩⟩
    | _ => cases ht
  | call _ _ | constant _ _ | monomial _ => cases ht

/-! ## Where the readings agree -/

variable [IsStrictOrderedRing K]

/-- The two readings agree on a tree that takes no negative remainder. -/
theorem evaluated_eq_signed (he : QuotientFree e) (hm : MonomialFree e)
    (hexact : EvaluatesExactly e) (h : NonnegRemainders e) :
    evaluated.value (e.map denote) = signed.value (e.map denote) := by
  induction e with
  | number x => rfl
  | negate e ih =>
    have hinner : QuotientFree e := he
    have heq := ih hinner (forall_subtrees_negate.mp hm).2 (evaluatesExactly_negate.mp hexact).2
      (nonnegRemainders_negate.mp h)
    rw [Expr.map, value, value, heq]
  | binary op l r ihl ihr =>
    obtain ⟨-, hl, hr⟩ := he
    obtain ⟨-, hml, hmr⟩ := forall_subtrees_binary.mp hm
    obtain ⟨-, hexactl, hexactr⟩ := evaluatesExactly_binary.mp hexact
    obtain ⟨hroot, hsignl, hsignr⟩ := nonnegRemainders_binary.mp h
    have heql := ihl hl hml hexactl hsignl
    have heqr := ihr hr hmr hexactr hsignr
    rw [Expr.map, value, value, ← heql, ← heqr]
    cases op with
    | mod =>
      obtain ⟨x, hx, hdx⟩ := denote_value hl hml hexactl
      obtain ⟨y, hy, hdy⟩ := denote_value hr hmr hexactr
      cases ha : evaluated.value (l.map denote) with
      | none => rfl
      | some a =>
        cases hb : evaluated.value (r.map denote) with
        | none => rfl
        | some b =>
          -- the only operation that the two readings tell apart
          show (Exact.remainder? a b).map (|·|) = Exact.remainder? a b
          cases hc : Exact.remainder? a b with
          | none => rfl
          | some c =>
            have hzip : (Exact.zip Exact.remainder? (denote x) (denote y)).get? = some c := by
              rw [hdx, hdy, ha, hb]
              exact hc
            have hpos := hroot rfl x y c hx hy hzip
            rw [Option.map_some, abs_of_nonneg hpos]
    | _ => rfl
  | monomial m => cases hm _ (self_mem_subtrees _)
  | call _ _ | constant _ _ => exact he.elim

variable [LawfulSign α] {target : String} {ceiling : Nat}

/-- If arithmetic divides by no zero, neither it nor what the simplifier returns for it takes a
negative remainder, and neither evaluating them nor folding on the way rounds, then the evaluator
gives both the same number. -/
theorem simplify_arithmetic (ht : Arithmetic t) (hdiv : NonzeroDivisors t)
    (htsign : NonnegRemainders t) (htexact : EvaluatesExactly t)
    (h : (Expr.simplify target ceiling t).outcome = .ok r)
    (hfolds : ∀ s, Visits target t s → FoldsExactly (Expr.pass target s).value)
    (hrsign : NonnegRemainders r) (hrexact : EvaluatesExactly r) :
    ∃ x y, t.value = .ok x ∧ r.value = .ok y ∧ Scalar.eqv x y = true := by
  have hfree := ht.quotientFree
  have hm := ht.monomialFree
  obtain ⟨v, hv⟩ := exists_value_arithmetic ht hdiv htexact
  have hsigned : signed.value (t.map denote) = some v := by
    rw [← evaluated_eq_signed hfree hm htexact htsign, hv]
  obtain ⟨hrfree, hrm, hrv⟩ := simplify_map rfl hfree hm hfolds hsigned h
  obtain ⟨x, hx, hdx⟩ := denote_value hfree hm htexact
  obtain ⟨y, hy, hdy⟩ := denote_value hrfree hrm hrexact
  refine ⟨x, y, hx, hy, Denotes.eqv_of_denote (a := v) ?_ ?_⟩
  · rw [hdx, hv]
  · rw [hdy, evaluated_eq_signed hrfree hrm hrexact hrsign, hrv]

/-- `17 % 5 - -3` is `5` and becomes `5`, on doubles: the negation makes the difference a sum, which
is folded. -/
theorem simplify_arithmetic_difference :
    let t : Expr Float := .binary .sub (.binary .mod (.number 17.0) (.number 5.0))
      (.negate (.number 3.0))
    (Expr.simplify "x" 4 t).outcome = .ok (.number 5.0) ∧
      ∃ x y, t.value = .ok x ∧ (Expr.number 5.0).value = .ok y ∧ Scalar.eqv x y = true := by
  intro t
  have h : (Expr.simplify "x" 4 t).outcome = .ok (.number 5.0) :=
    eq_ok_of_agrees (by decide +kernel)
  have ht : Arithmetic t :=
    ⟨⟨⟨17, by decide +kernel⟩, ⟨5, by decide +kernel⟩⟩, ⟨3, by decide +kernel⟩⟩
  have hdiv : NonzeroDivisors t := by
    intro l r hmem y hy
    obtain ⟨-, rfl⟩ : l = .number 17.0 ∧ r = .number 5.0 := by simpa [t, subtrees] using hmem
    cases hy
    decide +kernel
  have htsign : NonnegRemainders t := by
    have htwo : (Exact.zip Exact.remainder? (denote (17.0 : Float)) (denote (5.0 : Float))).get? =
        some 2 := by decide +kernel
    have hmod : NonnegRemainders (.binary .mod (.number 17.0) (.number 5.0) : Expr Float) := by
      refine nonnegRemainders_binary.mpr
        ⟨?_, nonnegRemainders_number _, nonnegRemainders_number _⟩
      intro _ x y c hx hy hc
      cases hx
      cases hy
      rw [htwo] at hc
      cases hc
      decide
    have hneg : NonnegRemainders (.negate (.number 3.0) : Expr Float) :=
      nonnegRemainders_negate.mpr (nonnegRemainders_number _)
    exact nonnegRemainders_binary.mpr ⟨(by simp), hmod, hneg⟩
  have htexact : EvaluatesExactly t := by
    have hmod : EvaluatesExactly (.binary .mod (.number 17.0) (.number 5.0) : Expr Float) := by
      have htwo : Operator.mod.value (17.0 : Float) 5.0 = .ok 2.0 := by decide +kernel
      refine evaluatesExactly_binary.mpr
        ⟨?_, evaluatesExactly_number _, evaluatesExactly_number _⟩
      intro x y z hx hy hz
      cases hx
      cases hy
      rw [htwo] at hz
      cases hz
      decide +kernel
    have hneg : EvaluatesExactly (.negate (.number 3.0) : Expr Float) := by
      refine evaluatesExactly_negate.mpr ⟨?_, evaluatesExactly_number _⟩
      intro x hx
      cases hx
      decide +kernel
    refine evaluatesExactly_binary.mpr ⟨?_, hmod, hneg⟩
    have htwo : (Expr.binary .mod (.number 17.0) (.number 5.0) : Expr Float).value = .ok 2.0 := by
      decide +kernel
    intro x y z hx hy hz
    rw [htwo] at hx
    cases hx
    cases hy
    cases hz
    decide +kernel
  have hfolds : ∀ s, Visits "x" t s → FoldsExactly (Expr.pass "x" s).value := by
    let p : Expr Float := .binary .add (.binary .mod (.number 17.0) (.number 5.0)) (.number 3.0)
    have hp : (Expr.pass "x" t).value = p := eq_of_agrees (by decide +kernel)
    have hfive : fold p = .ok (.number 5.0) := eq_ok_of_agrees (by decide +kernel)
    intro s hs
    -- the number is its own round, so the run visits no third tree
    have hs' : s = t ∨ s = .number 5.0 := by
      induction hs with
      | start => exact .inl rfl
      | next _ hround ih =>
        rcases ih with rfl | rfl
        · rw [hp] at hround
          exact .inr (Except.ok.inj (hround.symm.trans hfive))
        · exact .inr (Except.ok.inj hround.symm)
    rcases hs' with rfl | rfl
    · have hmod : FoldsExactly (.binary .mod (.number 17.0) (.number 5.0) : Expr Float) := by
        have htwo : Operator.mod.result? (17.0 : Float) 5.0 = some 2.0 := by decide +kernel
        refine foldsExactly_binary.mpr ⟨?_, foldsExactly_number _, foldsExactly_number _⟩
        intro x y z hx hy hz _
        cases hx
        cases hy
        rw [htwo] at hz
        cases hz
        decide +kernel
      rw [hp]
      refine foldsExactly_binary.mpr ⟨?_, hmod, foldsExactly_number _⟩
      have htwo : fold (.binary .mod (.number 17.0) (.number 5.0) : Expr Float) =
          .ok (.number 2.0) := eq_ok_of_agrees (by decide +kernel)
      intro x y z hx hy hz _
      rw [htwo] at hx
      cases hx
      cases hy
      cases hz
      decide +kernel
    · exact foldsExactly_number 5.0
  exact ⟨h, simplify_arithmetic ht hdiv htsign htexact h hfolds
    (nonnegRemainders_number 5.0) (evaluatesExactly_number 5.0)⟩

/-- `(2 - 7) % 3` is `2` and becomes `-2`, for a folding keeps the sign. Nothing is rounded. And
`3 * (9007199254740991 - 9007199254740990)` is `3` and becomes `4`: the factor moves into the
difference, whose terms are then rounded. -/
theorem simplify_arithmetic_sign :
    let t : Expr Float := .binary .mod (.binary .sub (.number 2.0) (.number 7.0)) (.number 3.0)
    let s : Expr Float := .binary .mul (.number 3.0)
      (.binary .sub (.number 9007199254740991.0) (.number 9007199254740990.0))
    ((Expr.simplify "x" 4 t).outcome = .ok (.number (-2.0)) ∧ t.value = .ok 2.0 ∧
        (Expr.number (-2.0)).value = .ok (-2.0)) ∧
      (Expr.simplify "x" 4 s).outcome = .ok (.number 4.0) ∧ s.value = .ok 3.0 ∧
        (Expr.number 4.0).value = .ok 4.0 := by
  intro t s
  have ht : (Expr.simplify "x" 4 t).outcome = .ok (.number (-2.0)) :=
    eq_ok_of_agrees (by decide +kernel)
  have hs : (Expr.simplify "x" 4 s).outcome = .ok (.number 4.0) :=
    eq_ok_of_agrees (by decide +kernel)
  exact ⟨⟨ht, by decide +kernel, rfl⟩, hs, by decide +kernel, rfl⟩

end Interpretation
end SymbolicAlgebra
