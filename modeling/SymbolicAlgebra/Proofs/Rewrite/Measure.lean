import Mathlib.Data.Prod.Lex
import Mathlib.Tactic.Ring
import Mathlib.Tactic.Linarith
import SymbolicAlgebra.Proofs.Rewrite.Steps
import SymbolicAlgebra.Proofs.Scalar

/-!
# A measure that every rule decreases

No count of nodes goes down with every rule: distributing a number over a sum
grows the tree, a sign pushed inward is copied, and moving a target monomial
outward only permutes operands. Two measures together go down with each rule,
read in lexicographic order.

* `weight`: a product weighs the product of its factors and a sum one more than
  its terms, so distributing pays for itself; a negation weighs twice its
  operand, so a sign may be copied into both terms of a sum. Permuting operands
  and pushing a sign into one factor leave the weight as it is.
* `spread`: counts nodes, with a negation counting its operand twice and each
  operation counting the target monomials below it four times. Where the weight
  stays, the tree loses a node, a sign moves inward, or a target monomial moves
  one operation outward, which pays for the sign a difference may leave behind.

Results:
* `Descends`: the order of the two measures, with the count of target monomials.
* `Descends.within`: a descent at one place is a descent of the whole tree.
* `not_descends_of_same`: equal trees have equal measures.
* `wellFounded_descends`: there is no infinite descent.
-/
namespace SymbolicAlgebra

/-- The weight of an operation whose operands weigh `a` and `b`. -/
def Operator.weigh : Operator → Nat → Nat → Nat
  | add, a, b => a + b + 1
  | sub, a, b => a + 2 * b + 1
  | mul, a, b | div, a, b | mod, a, b => a * b
  | pow, a, b => a * (b - 1) + 1
  | equals, a, b => a + b

namespace Operator

variable {op : Operator} {a a' b b' : Nat}

theorem two_le_weigh (ha : 2 ≤ a) (hb : 2 ≤ b) : 2 ≤ op.weigh a b := by
  have hab : 2 * 1 ≤ a * b := Nat.mul_le_mul ha (by omega)
  have hpow : 2 * 1 ≤ a * (b - 1) := Nat.mul_le_mul ha (by omega)
  cases op <;> simp only [weigh] <;> omega

theorem weigh_lt_left (hb : 2 ≤ b) (h : a' < a) : op.weigh a' b < op.weigh a b := by
  have hmul : a' * b < a * b := Nat.mul_lt_mul_of_pos_right h (by omega)
  have hpow : a' * (b - 1) < a * (b - 1) := Nat.mul_lt_mul_of_pos_right h (by omega)
  cases op <;> simp only [weigh] <;> omega

theorem weigh_lt_right (ha : 2 ≤ a) (hb : 2 ≤ b') (h : b' < b) :
    op.weigh a b' < op.weigh a b := by
  have hmul : a * b' < a * b := Nat.mul_lt_mul_of_pos_left h (by omega)
  have hpow : a * (b' - 1) < a * (b - 1) := Nat.mul_lt_mul_of_pos_left (by omega) (by omega)
  cases op <;> simp only [weigh] <;> omega

end Operator

namespace Expr

variable {α : Type} {target : String}

mutual

/-- The count of monomials of the target. -/
def targets (target : String) : Expr α → Nat
  | .number _ => 0
  | .constant _ _ => 0
  | .monomial m => if m.var = target then 1 else 0
  | .negate e => targets target e
  | .binary _ l r => targets target l + targets target r
  | .call _ args => targetsAll target args

def targetsAll (target : String) : List (Expr α) → Nat
  | [] => 0
  | e :: es => targets target e + targetsAll target es

end

theorem targetsAll_append : ∀ as bs : List (Expr α),
    targetsAll target (as ++ bs) = targetsAll target as + targetsAll target bs
  | [], bs => by simp [targetsAll]
  | a :: as, bs => by
    rw [List.cons_append, targetsAll, targetsAll, targetsAll_append as bs]; omega

variable [Scalar α]

mutual

/-- The first measure. -/
def weight : Expr α → Nat
  | .number _ => 2
  | .constant _ _ => 2
  | .monomial m => if Scalar.isNegative m.coefficient then 6 else 3
  | .negate e => 2 * weight e
  | .binary op l r => op.weigh (weight l) (weight r)
  | .call _ args => 2 + weightAll args

def weightAll : List (Expr α) → Nat
  | [] => 0
  | e :: es => weight e + weightAll es

end

mutual

/-- The second measure. -/
def spread (target : String) : Expr α → Nat
  | .number _ => 2
  | .constant _ _ => 2
  | .monomial m => if Scalar.isNegative m.coefficient then 3 else 1
  | .negate e => 2 * spread target e
  | .binary _ l r =>
    spread target l + spread target r + 1 + 4 * (targets target l + targets target r)
  | .call _ args => 1 + spreadAll target args

def spreadAll (target : String) : List (Expr α) → Nat
  | [] => 0
  | e :: es => spread target e + spreadAll target es

end

theorem two_le_weight (e : Expr α) : 2 ≤ e.weight := by
  induction e with
  | number x | constant name x => exact Nat.le_refl 2
  | monomial m => rw [weight]; split <;> omega
  | negate e ih => rw [weight]; omega
  | binary op l r ihl ihr => rw [weight]; exact Operator.two_le_weigh ihl ihr
  | call name args ih => rw [weight]; omega

theorem one_le_spread (target : String) (e : Expr α) : 1 ≤ e.spread target := by
  induction e with
  | number x | constant name x => exact Nat.le_succ 1
  | monomial m => rw [spread]; split <;> omega
  | negate e ih => rw [spread]; omega
  | binary op l r ihl ihr => rw [spread]; omega
  | call name args ih => rw [spread]; omega

theorem weightAll_append : ∀ as bs : List (Expr α),
    weightAll (as ++ bs) = weightAll as + weightAll bs
  | [], bs => by simp [weightAll]
  | a :: as, bs => by rw [List.cons_append, weightAll, weightAll, weightAll_append as bs]; omega

theorem spreadAll_append : ∀ as bs : List (Expr α),
    spreadAll target (as ++ bs) = spreadAll target as + spreadAll target bs
  | [], bs => by simp [spreadAll]
  | a :: as, bs => by rw [List.cons_append, spreadAll, spreadAll, spreadAll_append as bs]; omega

/-! ## Descent -/

/-- From `a` to `b` the weight goes down, or it stays and the spread goes down without a new
monomial of the target. -/
def Descends (target : String) (a b : Expr α) : Prop :=
  b.weight < a.weight ∨
    b.weight = a.weight ∧ b.targets target ≤ a.targets target ∧ b.spread target < a.spread target

namespace Descends

variable {a b c : Expr α}

theorem of_weight (h : b.weight < a.weight) : Descends target a b := .inl h

theorem of_spread (hw : b.weight ≤ a.weight) (ht : b.targets target ≤ a.targets target)
    (hs : b.spread target < a.spread target) : Descends target a b := by
  rcases Nat.lt_or_eq_of_le hw with h | h
  · exact .inl h
  · exact .inr ⟨h, ht, hs⟩

theorem trans (hab : Descends target a b) (hbc : Descends target b c) : Descends target a c := by
  rcases hab with h | ⟨h, ht, hs⟩ <;> rcases hbc with h' | ⟨h', ht', hs'⟩
  · exact .inl (by omega)
  · exact .inl (by omega)
  · exact .inl (by omega)
  · exact .inr ⟨by omega, by omega, by omega⟩

/-- A descent at one place in a tree is a descent of the tree. -/
theorem within {R : Expr α → Expr α → Prop} (hR : ∀ a b, R a b → Descends target a b)
    (h : Within R a b) : Descends target a b := by
  induction h with
  | root h => exact hR _ _ h
  | negate _ ih =>
    rcases ih with h | ⟨h, ht, hs⟩
    · exact .inl (by simp only [weight]; omega)
    · exact .inr ⟨by simp only [weight]; omega, by simpa only [targets] using ht,
        by simp only [spread]; omega⟩
  | @left op a b r _ ih =>
    rcases ih with h | ⟨h, ht, hs⟩
    · exact .inl (by simp only [weight]; exact Operator.weigh_lt_left (two_le_weight r) h)
    · exact .inr ⟨by simp only [weight, h], by simp only [targets]; omega,
        by simp only [spread]; omega⟩
  | @right op l a b _ ih =>
    rcases ih with h | ⟨h, ht, hs⟩
    · exact .inl (by
        simp only [weight]; exact Operator.weigh_lt_right (two_le_weight l) (two_le_weight b) h)
    · exact .inr ⟨by simp only [weight, h], by simp only [targets]; omega,
        by simp only [spread]; omega⟩
  | argument _ ih =>
    rcases ih with h | ⟨h, ht, hs⟩
    · exact .inl (by simp only [weight, weightAll_append, weightAll]; omega)
    · exact .inr ⟨by simp only [weight, weightAll_append, weightAll]; omega,
        by simp only [targets, targetsAll_append, targetsAll]; omega,
        by simp only [spread, spreadAll_append, spreadAll]; omega⟩

end Descends

theorem wellFounded_descends (target : String) :
    WellFounded fun b a : Expr α => Descends target a b := by
  have hlex : WellFounded (InvImage (Prod.Lex (· < ·) (· < ·))
      fun e : Expr α => (e.weight, e.spread target)) :=
    InvImage.wf _ (WellFounded.prod_lex Nat.lt_wfRel.wf Nat.lt_wfRel.wf)
  refine Subrelation.wf ?_ hlex
  intro b a h
  rcases h with h | ⟨h, -, hs⟩
  · exact Prod.Lex.left _ _ h
  · show Prod.Lex _ _ (b.weight, b.spread target) (a.weight, a.spread target)
    rw [h]
    exact Prod.Lex.right _ hs

/-! ## Equal trees -/

theorem measuresAll_eq_of_same : ∀ {as bs : List (Expr α)},
    (∀ a ∈ as, ∀ b, a.same b = true → a.weight = b.weight ∧
      a.targets target = b.targets target ∧ a.spread target = b.spread target) →
    sameAll as bs = true → weightAll as = weightAll bs ∧
      targetsAll target as = targetsAll target bs ∧ spreadAll target as = spreadAll target bs
  | [], [], _, _ => ⟨rfl, rfl, rfl⟩
  | [], _ :: _, _, h => by simp [sameAll] at h
  | _ :: _, [], _, h => by simp [sameAll] at h
  | a :: as, b :: bs, h, hs => by
    simp only [sameAll, Bool.and_eq_true] at hs
    obtain ⟨h1, h2, h3⟩ := h a (by simp) b hs.1
    obtain ⟨h4, h5, h6⟩ := measuresAll_eq_of_same (fun a ha => h a (by simp [ha])) hs.2
    simp only [weightAll, targetsAll, spreadAll]
    omega

section
variable [LawfulSign α]

/-- Trees that are equal field by field have equal measures. -/
theorem measures_eq_of_same (target : String) {a b : Expr α} (h : a.same b = true) :
    a.weight = b.weight ∧ a.targets target = b.targets target ∧
      a.spread target = b.spread target := by
  induction a generalizing b with
  | number x => cases b <;> simp_all [same, weight, targets, spread]
  | constant name x => cases b <;> simp_all [same, weight, targets, spread]
  | monomial m =>
    cases b with
    | monomial n =>
      simp only [same, Monomial.same, Bool.and_eq_true, beq_iff_eq] at h
      have hsign := LawfulSign.isNegative_of_same h.1.1
      simp [weight, targets, spread, hsign, h.1.2]
    | _ => simp [same] at h
  | negate e ih =>
    cases b with
    | negate e' =>
      obtain ⟨h1, h2, h3⟩ := ih (b := e') (by simpa [same] using h)
      simp [weight, targets, spread, h1, h2, h3]
    | _ => simp [same] at h
  | binary op l r ihl ihr =>
    cases b with
    | binary op' l' r' =>
      simp only [same, Bool.and_eq_true, beq_iff_eq] at h
      obtain ⟨h1, h2, h3⟩ := ihl h.1.2
      obtain ⟨h4, h5, h6⟩ := ihr h.2
      simp [weight, targets, spread, h.1.1, h1, h2, h3, h4, h5, h6]
    | _ => simp [same] at h
  | call name args ih =>
    cases b with
    | call name' args' =>
      simp only [same, Bool.and_eq_true, beq_iff_eq] at h
      obtain ⟨h1, h2, h3⟩ := measuresAll_eq_of_same (fun a ha b => ih a ha) h.2
      simp [weight, targets, spread, h1, h2, h3]
    | _ => simp [same] at h

theorem not_descends_of_same {a b : Expr α} (h : b.same a = true) : ¬ Descends target a b := by
  obtain ⟨hw, -, hs⟩ := measures_eq_of_same target h
  intro hd
  rcases hd with h | ⟨-, -, h⟩ <;> omega

end

end Expr
end SymbolicAlgebra
