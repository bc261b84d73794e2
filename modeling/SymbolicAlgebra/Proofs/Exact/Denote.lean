import SymbolicAlgebra.Proofs.Binary64.Rational
import SymbolicAlgebra.Proofs.Exact.QuotientFree
import SymbolicAlgebra.Proofs.Rewrite.Census

/-!
# Numbers that stand for exact ones

A double stands for a rational number, or for none where it is infinite or
undefined. Doubles that rewriting takes for equal stand for the same one. On a
tree without monomials the rules do nothing but compare numbers, so what they do
to a tree of doubles they do to the tree of the numbers these stand for. Only
folding computes, and it keeps the value as long as it rounds nothing.

Results:
* the instance `Denotes Float ℚ`.
* `Contracts.map`: a rule applied to a tree is a rule applied to what it stands
  for.
* `value_map_pass`, `value_map_fold`: a pass keeps the value of what a tree stands
  for, and so does a folding that rounds nothing.
* `simplify_map`: so does the simplifier, if no folding on the way rounds.
-/
namespace SymbolicAlgebra

/-- Numbers that stand for exact ones or for none. They are equal where they stand for the same one,
and stand for the same one where rewriting takes them for equal. The literals that rules bring in
stand for themselves. -/
class Denotes (α : Type) (K : outParam Type) [Scalar α] [Field K] [LinearOrder K] [FloorRing K]
    [PartialPower K] where
  denote : α → Exact K
  denote_natural : ∀ n, n ≤ 2 → denote (Scalar.natural n) = Scalar.natural n
  denote_of_eqv : ∀ {x y}, Scalar.eqv x y = true → denote x = denote y
  denote_of_same : ∀ {x y}, Scalar.same x y = true → denote x = denote y
  eqv_of_denote : ∀ {x y a}, (denote x).get? = some a → (denote y).get? = some a →
    Scalar.eqv x y = true

namespace Binary64

instance : Denotes Float ℚ where
  denote x := ⟨rational? x.toModel.unpack⟩
  denote_natural n hn := by
    have hcases : n = 0 ∨ n = 1 ∨ n = 2 := by omega
    rcases hcases with rfl | rfl | rfl <;> decide +kernel
  denote_of_eqv h := congrArg Exact.mk (rational?_of_beq h)
  denote_of_same h := by
    rcases Bool.or_eq_true_iff.mp h with h | h
    · exact congrArg Exact.mk (rational?_of_beq h)
    · obtain ⟨hx, hy⟩ := Bool.and_eq_true_iff.mp h
      rw [rational?_of_isNaN hx, rational?_of_isNaN hy]
  eqv_of_denote hx hy := beq_of_rational? hx hy

end Binary64

namespace Expr

/-! ## What a tree stands for -/

section
variable {α β : Type}

mutual

/-- A tree with its numbers replaced. -/
def map (f : α → β) : Expr α → Expr β
  | .number x => .number (f x)
  | .constant name x => .constant name (f x)
  | .monomial m => .monomial ⟨f m.coefficient, m.var, f m.exponent⟩
  | .negate e => .negate (map f e)
  | .binary op l r => .binary op (map f l) (map f r)
  | .call name args => .call name (mapAll f args)

/-- A list of trees with their numbers replaced. -/
def mapAll (f : α → β) : List (Expr α) → List (Expr β)
  | [] => []
  | e :: es => map f e :: mapAll f es

end

@[simp] theorem isMonomial_map (f : α → β) (e : Expr α) : (e.map f).isMonomial = e.isMonomial := by
  cases e <;> rfl

end

open Denotes (denote)

variable {α K : Type} [Scalar α] [Field K] [LinearOrder K] [FloorRing K] [PartialPower K]
variable [Denotes α K] {e e' l r : Expr α} {target : String}

/-- The numbers zero, one and two stand for themselves. -/
theorem map_literal {n : Nat} (hn : n ≤ 2) : (literal n : Expr α).map denote = literal n :=
  congrArg Expr.number (Denotes.denote_natural n hn)

theorem isLiteral_map {n : Nat} (hn : n ≤ 2) (h : e.isLiteral n = true) :
    (e.map denote).isLiteral n = true := by
  obtain ⟨x, rfl, hx⟩ := number_of_isLiteral h
  have hdenote : denote x = Scalar.natural n :=
    (Denotes.denote_of_eqv hx).trans (Denotes.denote_natural n hn)
  show Scalar.eqv (denote x) (Scalar.natural n) = true
  rw [hdenote]
  exact Exact.eqv_natural.mpr rfl

theorem mapAll_eq_of_sameAll : ∀ {as bs : List (Expr α)},
    (∀ a ∈ as, ∀ b, a.same b = true → a.map denote = b.map denote) → sameAll as bs = true →
      mapAll denote as = mapAll denote bs
  | [], [], _, _ => rfl
  | [], _ :: _, _, h => by simp [sameAll] at h
  | _ :: _, [], _, h => by simp [sameAll] at h
  | a :: as, b :: bs, h, hs => by
    simp only [sameAll, Bool.and_eq_true] at hs
    rw [mapAll, mapAll, h a (by simp) b hs.1,
      mapAll_eq_of_sameAll (fun a ha => h a (by simp [ha])) hs.2]

/-- Equal trees stand for the same tree. -/
theorem map_eq_of_same (h : l.same r = true) : l.map denote = r.map denote := by
  induction l generalizing r with
  | number x =>
    cases r <;> simp only [same, Bool.false_eq_true] at h
    rw [map, map, Denotes.denote_of_same h]
  | negate e ih =>
    cases r <;> simp only [same, Bool.false_eq_true] at h
    rw [map, map, ih h]
  | binary op a b iha ihb =>
    cases r <;> simp only [same, Bool.false_eq_true, Bool.and_eq_true, beq_iff_eq] at h
    rw [map, map, h.1.1, iha h.1.2, ihb h.2]
  | call name args ih =>
    cases r <;> simp only [same, Bool.false_eq_true, Bool.and_eq_true, beq_iff_eq] at h
    rw [map, map, h.1, mapAll_eq_of_sameAll (fun a ha b => ih a ha) h.2]
  | monomial m =>
    cases r with
    | monomial n =>
      simp only [same, Monomial.same, Bool.and_eq_true, beq_iff_eq] at h
      rw [map, map, Denotes.denote_of_same h.1.1, h.1.2, Denotes.denote_of_same h.2]
    | _ => simp [same] at h
  | constant name x =>
    cases r <;> simp only [same, Bool.false_eq_true, Bool.and_eq_true, beq_iff_eq] at h
    rw [map, map, h.1, Denotes.denote_of_same h.2]

theorem joins_map {op : Operator} (h : Joins r op) : Joins (r.map denote) op := by
  cases op with
  | pow =>
    obtain rfl : r = literal 2 := h
    exact map_literal (Nat.le_refl 2)
  | _ => exact h

theorem QuotientFree.map (h : QuotientFree e) : QuotientFree (e.map denote) := by
  induction e with
  | number _ | monomial _ => trivial
  | negate e ih =>
    have hfree : QuotientFree (e.map denote) := ih h
    exact hfree
  | binary op l r ihl ihr =>
    obtain ⟨hop, hl, hr⟩ := h
    exact ⟨joins_map hop, ihl hl, ihr hr⟩
  | call _ _ | constant _ _ => exact h.elim

variable [IsStrictOrderedRing K]

theorem same_map (h : l.same r = true) : (l.map denote).same (r.map denote) = true := by
  rw [map_eq_of_same h]
  exact same_self LawfulSign.same_self _

theorem repeats_map (h : l.repeats r = true) : (l.map denote).repeats (r.map denote) = true := by
  obtain ⟨hsame, hmonomial⟩ := Bool.and_eq_true_iff.mp h
  rw [repeats, same_map hsame, isMonomial_map, isMonomial_map]
  exact hmonomial

/-- A rule applied to a tree without quotients and monomials is a rule applied to what the tree
stands for. -/
theorem Contracts.map [LawfulSign α] (h : Contracts target e e') (he : QuotientFree e)
    (hm : MonomialFree e) : Contracts target (e.map denote) (e'.map denote) := by
  have hzero := map_literal (α := α) (show 0 ≤ 2 by decide)
  have hone := map_literal (α := α) (show 1 ≤ 2 by decide)
  have htwo := map_literal (α := α) (show 2 ≤ 2 by decide)
  cases h with
  | zeroPlus hl => exact .zeroPlus (isLiteral_map (by decide) hl)
  | plusZero hr => exact .plusZero (isLiteral_map (by decide) hr)
  | plusSelf hs =>
    rw [Expr.map, Expr.map, htwo]
    exact .plusSelf (repeats_map hs)
  | plusNegated => exact .plusNegated
  | minusZero hr => exact .minusZero (isLiteral_map (by decide) hr)
  | zeroMinus hl => exact .zeroMinus (isLiteral_map (by decide) hl)
  | minusSelf hs =>
    rw [hzero]
    exact .minusSelf (same_map hs)
  | minusNegated => exact .minusNegated
  | oneTimes hl => exact .oneTimes (isLiteral_map (by decide) hl)
  | timesOne hr => exact .timesOne (isLiteral_map (by decide) hr)
  | zeroTimes hl =>
    rw [hzero]
    exact .zeroTimes (isLiteral_map (by decide) hl)
  | timesZero hr =>
    rw [hzero]
    exact .timesZero (isLiteral_map (by decide) hr)
  | timesSelf hs =>
    rw [Expr.map, Expr.map, htwo]
    exact .timesSelf (repeats_map hs)
  | timesPower ha hne =>
    obtain ⟨-, ⟨hb, -⟩, ⟨hc, -⟩⟩ := he
    rw [repeats_squares ha hb hc] at hne
    cases hne
  | timesSum hop => exact .timesSum hop
  | overOne hr => exact .overOne (isLiteral_map (by decide) hr)
  | overSelf hs =>
    rw [hone]
    exact .overSelf (same_map hs)
  | powerZero hr =>
    rw [hone]
    exact .powerZero (isLiteral_map (by decide) hr)
  | powerOne hr => exact .powerOne (isLiteral_map (by decide) hr)
  | powerNegated => cases he.1
  | negatedNegation => exact .negatedNegation
  | negatedSum hop => exact .negatedSum hop
  | negatedProduct hop => exact .negatedProduct hop
  | @timesMonomial n m | @monomialOver m n | @merged _ m n _ _ | @hoistedRight _ _ _ _ m _ _ _
  | @hoistedSum _ _ _ m _ _ _ | @hoistedDifference _ _ _ m _ _ _ | @hoistedProduct _ _ _ m _ _ _
  | @zeroCoefficient m _ | @zeroExponent m _ | @negativeCoefficient m _ =>
    cases hm (.monomial m) (by simp [subtrees])

/-- No operation that folding carries out is rounded. -/
def FoldsExactly (e : Expr α) : Prop :=
  ∀ op l r, .binary op l r ∈ e.subtrees → ∀ x y z, fold l = .ok (.number x) →
    fold r = .ok (.number y) → op.result? x y = some z → Scalar.isWhole z = true →
      denote z = Exact.zip (op.meaning? Exact.remainder?) (denote x) (denote y)

omit [IsStrictOrderedRing K] in
theorem foldsExactly_number (x : α) : FoldsExactly (.number x) := by
  simp [FoldsExactly, subtrees]

omit [IsStrictOrderedRing K] in
theorem foldsExactly_negate : FoldsExactly (.negate e) ↔ FoldsExactly e :=
  forall_operations_negate

omit [IsStrictOrderedRing K] in
theorem foldsExactly_binary {op : Operator} : FoldsExactly (.binary op l r) ↔
    (∀ x y z, fold l = .ok (.number x) → fold r = .ok (.number y) → op.result? x y = some z →
      Scalar.isWhole z = true →
        denote z = Exact.zip (op.meaning? Exact.remainder?) (denote x) (denote y)) ∧
      FoldsExactly l ∧ FoldsExactly r :=
  forall_operations_binary

end Expr

namespace Interpretation

open Denotes (denote)
open SymbolicAlgebra.Expr (QuotientFree MonomialFree FoldsExactly Visits contract?)

variable {α K : Type} [Scalar α] [Field K] [LinearOrder K] [FloorRing K] [PartialPower K]
variable [Denotes α K] {I : Interpretation K} {e e' t r : Expr α} {v : K}
variable {target : String} {ceiling : Nat}

/-! ## One round -/

/-- A folding that rounds nothing keeps the value of what a tree stands for. -/
theorem value_map_fold (hrem : I.remainder? = Exact.remainder?) (h : Expr.fold e = .ok e')
    (he : QuotientFree e) (hexact : FoldsExactly e) (hv : I.value (e.map denote) = some v) :
    I.value (e'.map denote) = some v := by
  induction e generalizing e' v with
  | number x | monomial m =>
    cases h
    exact hv
  | constant _ _ | call _ _ => exact he.elim
  | negate e ih =>
    obtain ⟨a, ha, rfl⟩ := Expr.fold_negate_eq_ok.mp h
    obtain ⟨x, hx, rfl⟩ := value_negate.mp hv
    have hx' := ih ha he (Expr.foldsExactly_negate.mp hexact) hx
    exact value_negate.mpr ⟨x, hx', rfl⟩
  | binary op l r ihl ihr =>
    obtain ⟨a, ha, b, hb, hab⟩ := Expr.fold_binary_eq_ok.mp h
    obtain ⟨-, hl, hr⟩ := he
    obtain ⟨x, y, hx, hy, hxy⟩ := value_binary.mp hv
    obtain ⟨hfolded, hexactl, hexactr⟩ := Expr.foldsExactly_binary.mp hexact
    have hx' := ihl ha hl hexactl hx
    have hy' := ihr hb hr hexactr hy
    rcases Expr.foldBinary_eq_ok hab with hc | ⟨rfl, -⟩
    · cases hc with
      | literals hz hw =>
        rw [Expr.map, value_number] at hx' hy' ⊢
        rw [hfolded _ _ _ ha hb hz hw]
        exact Exact.zip_get?_eq_some.mpr ⟨x, y, hx', hy', hrem ▸ hxy⟩
    · exact value_binary.mpr ⟨x, y, hx', hy', hxy⟩

variable [LawfulSign α] [IsStrictOrderedRing K]

/-- A rule that fires keeps the value of what a tree stands for. -/
theorem value_map_step (hrem : I.remainder? = Exact.remainder?) (target : String)
    (he : QuotientFree e) (hm : MonomialFree e) (hv : I.value (e.map denote) = some v) :
    I.value ((Traced.ofStep (contract? target e) e).value.map denote) = some v := by
  cases hc : contract? target e with
  | none => exact hv
  | some step =>
    have hcontracts := (Expr.contracts_of_contract? hc).map he hm
    have hroot : (e.map denote).isMonomial = false := by
      rw [Expr.isMonomial_map]
      exact hm e (Expr.self_mem_subtrees e)
    exact value_of_contracts hcontracts (allows_of_quotientFree hrem he.map hroot) hv

/-- A pass keeps the value of what a tree stands for. -/
theorem value_map_pass (hrem : I.remainder? = Exact.remainder?) (target : String)
    (he : QuotientFree e) (hm : MonomialFree e) (hv : I.value (e.map denote) = some v) :
    I.value ((Expr.pass target e).value.map denote) = some v := by
  induction e generalizing v with
  | number x => exact hv
  | constant _ _ | call _ _ => exact he.elim
  | monomial m => cases hm _ (Expr.self_mem_subtrees _)
  | negate e ih =>
    obtain ⟨a, ha, rfl⟩ := value_negate.mp hv
    have hinner : QuotientFree e := he
    have hminner := (Expr.forall_subtrees_negate.mp hm).2
    have ha' := ih hinner hminner ha
    have hfree : QuotientFree (.negate (Expr.pass target e).value) := hinner.pass target
    have hmfree : MonomialFree (.negate (Expr.pass target e).value) :=
      Expr.forall_subtrees_negate.mpr ⟨rfl, MonomialFree.pass hminner target⟩
    exact value_map_step hrem target hfree hmfree (value_negate.mpr ⟨a, ha', rfl⟩)
  | binary op l r ihl ihr =>
    obtain ⟨hop, hl, hr⟩ := he
    obtain ⟨-, hml, hmr⟩ := Expr.forall_subtrees_binary.mp hm
    obtain ⟨a, b, ha, hb, hab⟩ := value_binary.mp hv
    have ha' := ihl hl hml ha
    have hb' := ihr hr hmr hb
    have hfree : QuotientFree
        (.binary op (Expr.pass target l).value (Expr.pass target r).value) :=
      ⟨Expr.joins_pass target hop, hl.pass target, hr.pass target⟩
    have hmfree : MonomialFree
        (.binary op (Expr.pass target l).value (Expr.pass target r).value) :=
      Expr.forall_subtrees_binary.mpr
        ⟨rfl, MonomialFree.pass hml target, MonomialFree.pass hmr target⟩
    exact value_map_step hrem target hfree hmfree (value_binary.mpr ⟨a, b, ha', hb', hab⟩)

/-! ## Whole runs -/

/-- The simplifier keeps the value of what a tree stands for, if no folding on the way rounds. -/
theorem simplify_map (hrem : I.remainder? = Exact.remainder?) (ht : QuotientFree t)
    (hm : MonomialFree t)
    (hexact : ∀ s, Visits target t s → FoldsExactly (Expr.pass target s).value)
    (hv : I.value (t.map denote) = some v)
    (h : (Expr.simplify target ceiling t).outcome = .ok r) :
    QuotientFree r ∧ MonomialFree r ∧ I.value (r.map denote) = some v := by
  have hround : ∀ a b, Visits target t a ∧ QuotientFree a ∧ MonomialFree a ∧
      I.value (a.map denote) = some v → Expr.fold (Expr.pass target a).value = .ok b →
        Visits target t b ∧ QuotientFree b ∧ MonomialFree b ∧
          I.value (b.map denote) = some v := by
    intro a b hab hfold
    obtain ⟨hvisits, hfree, hmfree, hva⟩ := hab
    have hvp := value_map_pass hrem target hfree hmfree hva
    have hfreep := hfree.pass target
    exact ⟨hvisits.next hfold, hfreep.fold hfold, (hmfree.pass target).fold hfold,
      value_map_fold hrem hfold hfreep (hexact a hvisits) hvp⟩
  exact (Expr.simplify_induction hround ⟨.start, ht, hm, hv⟩ h).1.2

end Interpretation
end SymbolicAlgebra
