import SymbolicAlgebra.Expr.Basic

/-!
# Subtrees and induction on trees

The operands of a call are a list of trees, so the recursor that comes with
`Expr` has a second motive for lists. `Expr.induct` folds it into one: a call
assumes the motive of each of its operands.

Results:
* `Expr.subtrees`: every tree that stands somewhere in a tree, the tree first.
* `forall_subtrees_binary` and its like: a property of all subtrees, taken
  apart at the root; `forall_operations_binary`: one of all operations.
* `eq_of_same`: where equality of leaves is equality, so is equality of trees.
-/
namespace SymbolicAlgebra.Expr

variable {α : Type}

/-- Induction on trees, the operands of a call being its children. -/
@[elab_as_elim, induction_eliminator]
theorem induct {motive : Expr α → Prop}
    (number : ∀ x, motive (.number x))
    (negate : ∀ e, motive e → motive (.negate e))
    (binary : ∀ op l r, motive l → motive r → motive (.binary op l r))
    (call : ∀ name args, (∀ e ∈ args, motive e) → motive (.call name args))
    (monomial : ∀ m, motive (.monomial m))
    (constant : ∀ name x, motive (.constant name x)) (e : Expr α) : motive e := by
  refine @Expr.rec α motive (fun args => ∀ e ∈ args, motive e)
    number negate binary call monomial constant ?_ ?_ e
  · intro e he; cases he
  · intro e es ihe ihes a ha
    rcases List.mem_cons.mp ha with rfl | ha
    · exact ihe
    · exact ihes a ha

mutual

/-- The trees that stand in a tree, in preorder. -/
def subtrees : Expr α → List (Expr α)
  | .number x => [.number x]
  | .negate e => .negate e :: subtrees e
  | .binary op l r => .binary op l r :: (subtrees l ++ subtrees r)
  | .call name args => .call name args :: subtreesAll args
  | .monomial m => [.monomial m]
  | .constant name x => [.constant name x]

/-- The trees that stand in a list of trees. -/
def subtreesAll : List (Expr α) → List (Expr α)
  | [] => []
  | e :: es => subtrees e ++ subtreesAll es

end

theorem subtreesAll_eq_flatMap : ∀ es : List (Expr α), subtreesAll es = es.flatMap subtrees
  | [] => rfl
  | e :: es => by rw [subtreesAll, subtreesAll_eq_flatMap es, List.flatMap_cons]

/-- A tree is a subtree of itself. -/
theorem self_mem_subtrees (e : Expr α) : e ∈ e.subtrees := by
  cases e <;> exact List.mem_cons_self

section
variable {p : Expr α → Prop}

theorem forall_subtrees_number {x : α} :
    (∀ s ∈ (number x).subtrees, p s) ↔ p (.number x) := List.forall_mem_singleton

theorem forall_subtrees_constant {name : String} {x : α} :
    (∀ s ∈ (constant name x).subtrees, p s) ↔ p (.constant name x) := List.forall_mem_singleton

theorem forall_subtrees_monomial {m : Monomial α} :
    (∀ s ∈ (monomial m).subtrees, p s) ↔ p (.monomial m) := List.forall_mem_singleton

theorem forall_subtrees_negate {e : Expr α} :
    (∀ s ∈ (negate e).subtrees, p s) ↔ p (.negate e) ∧ ∀ s ∈ e.subtrees, p s :=
  List.forall_mem_cons

theorem forall_subtrees_binary {op : Operator} {l r : Expr α} :
    (∀ s ∈ (binary op l r).subtrees, p s) ↔
      p (.binary op l r) ∧ (∀ s ∈ l.subtrees, p s) ∧ ∀ s ∈ r.subtrees, p s :=
  List.forall_mem_cons.trans (and_congr_right fun _ => List.forall_mem_append)

theorem forall_subtrees_call {name : String} {args : List (Expr α)} :
    (∀ s ∈ (call name args).subtrees, p s) ↔
      p (.call name args) ∧ ∀ e ∈ args, ∀ s ∈ e.subtrees, p s := by
  simp only [subtrees, subtreesAll_eq_flatMap, List.forall_mem_cons, List.mem_flatMap]
  constructor
  · intro h
    obtain ⟨h, hall⟩ := h
    exact ⟨h, fun e he s hs => hall s ⟨e, he, hs⟩⟩
  · intro h
    obtain ⟨h, hall⟩ := h
    exact ⟨h, fun s ⟨e, he, hs⟩ => hall e he s hs⟩

end

section
variable {p : Operator → Expr α → Expr α → Prop}

theorem forall_operations_negate {e : Expr α} :
    (∀ op l r, .binary op l r ∈ (negate e).subtrees → p op l r) ↔
      ∀ op l r, .binary op l r ∈ e.subtrees → p op l r := by simp [subtrees]

theorem forall_operations_binary {op : Operator} {l r : Expr α} :
    (∀ op' a b, .binary op' a b ∈ (binary op l r).subtrees → p op' a b) ↔
      p op l r ∧ (∀ op' a b, .binary op' a b ∈ l.subtrees → p op' a b) ∧
        ∀ op' a b, .binary op' a b ∈ r.subtrees → p op' a b := by
  simp only [subtrees, List.mem_cons, List.mem_append, or_imp, forall_and]
  simp +contextual [eq_comm]

end

/-- What holds of all subtrees of a tree holds of all subtrees of each subtree. -/
theorem forall_subtrees_of_mem {p : Expr α → Prop} {e : Expr α} (h : ∀ s ∈ e.subtrees, p s) :
    ∀ s ∈ e.subtrees, ∀ a ∈ s.subtrees, p a := by
  induction e with
  | number x => exact forall_subtrees_number.mpr h
  | constant name x => exact forall_subtrees_constant.mpr h
  | monomial m => exact forall_subtrees_monomial.mpr h
  | negate e ih =>
    have hparts := forall_subtrees_negate.mp h
    exact forall_subtrees_negate.mpr ⟨h, ih hparts.2⟩
  | binary op l r ihl ihr =>
    have hparts := forall_subtrees_binary.mp h
    exact forall_subtrees_binary.mpr ⟨h, ihl hparts.2.1, ihr hparts.2.2⟩
  | call name args ih =>
    have hparts := forall_subtrees_call.mp h
    exact forall_subtrees_call.mpr ⟨h, fun e he => ih e he (hparts.2 e he)⟩

/-! ## Leaves -/

theorem number_of_isLiteral [Scalar α] {n : Nat} {e : Expr α} (h : e.isLiteral n = true) :
    ∃ x, e = .number x ∧ Scalar.eqv x (Scalar.natural n) = true := by
  cases e with
  | number x => exact ⟨x, rfl, h⟩
  | _ => cases h

theorem monomial_of_isTarget {target : String} {e : Expr α} (h : e.isTarget target = true) :
    ∃ m, e = .monomial m ∧ m.var = target := by
  cases e with
  | monomial m => exact ⟨m, rfl, beq_iff_eq.mp h⟩
  | _ => cases h

/-! ## Equality of trees -/

section
variable [Scalar α]

theorem sameAll_self : ∀ (es : List (Expr α)), (∀ e ∈ es, e.same e = true) →
    sameAll es es = true
  | [], _ => rfl
  | e :: es, h => by
    have he := h e (by simp)
    have hes := sameAll_self es fun a ha => h a (by simp [ha])
    simp [sameAll, he, hes]

/-- A tree equals itself where every leaf does. -/
theorem same_self (h : ∀ x : α, Scalar.same x x = true) (e : Expr α) : e.same e = true := by
  induction e with
  | number x => exact h x
  | negate e ih => simpa [same] using ih
  | binary op l r ihl ihr => simp [same, ihl, ihr]
  | call name args ih => simp [same, sameAll_self args ih]
  | monomial m => simp [same, Monomial.same, h]
  | constant name x => simp [same, h]

theorem sameAll_eq : ∀ {as bs : List (Expr α)},
    (∀ a ∈ as, ∀ b, a.same b = true → a = b) → sameAll as bs = true → as = bs
  | [], [], _, _ => rfl
  | [], _ :: _, _, h => by simp [sameAll] at h
  | _ :: _, [], _, h => by simp [sameAll] at h
  | a :: as, b :: bs, h, hs => by
    simp only [sameAll, Bool.and_eq_true] at hs
    rw [h a (by simp) b hs.1, sameAll_eq (fun a ha => h a (by simp [ha])) hs.2]

/-- Trees that are equal field by field are equal, where equality of leaves is equality. -/
theorem eq_of_same (h : ∀ x y : α, Scalar.same x y = true → x = y) {a b : Expr α}
    (hab : a.same b = true) : a = b := by
  induction a generalizing b with
  | number x =>
    cases b <;> simp only [same, Bool.false_eq_true] at hab
    rw [h x _ hab]
  | negate e ih =>
    cases b <;> simp only [same, Bool.false_eq_true] at hab
    rw [ih hab]
  | binary op l r ihl ihr =>
    cases b <;> simp only [same, Bool.false_eq_true, Bool.and_eq_true, beq_iff_eq] at hab
    rw [hab.1.1, ihl hab.1.2, ihr hab.2]
  | call name args ih =>
    cases b <;> simp only [same, Bool.false_eq_true, Bool.and_eq_true, beq_iff_eq] at hab
    rw [hab.1, sameAll_eq (fun a ha b => ih a ha) hab.2]
  | monomial m =>
    cases b with
    | monomial n =>
      obtain ⟨c, v, x⟩ := m
      obtain ⟨d, w, y⟩ := n
      simp only [same, Monomial.same, Bool.and_eq_true, beq_iff_eq] at hab
      rw [h c d hab.1.1, hab.1.2, h x y hab.2]
    | _ => simp [same] at hab
  | constant name x =>
    cases b <;> simp only [same, Bool.false_eq_true, Bool.and_eq_true, beq_iff_eq] at hab
    rw [hab.1, h x _ hab.2]

end

/-! ## Trees without calls -/

section
variable [DecidableEq α]

/-- Equality of trees without calls, leaf by leaf. -/
def agrees : Expr α → Expr α → Bool
  | .number x, .number y => x = y
  | .constant name x, .constant name' y => name = name' && x = y
  | .monomial m, .monomial n => m = n
  | .negate a, .negate b => agrees a b
  | .binary op a b, .binary op' c d => op = op' && agrees a c && agrees b d
  | _, _ => false

theorem eq_of_agrees {a b : Expr α} (h : a.agrees b = true) : a = b := by
  induction a generalizing b with
  | number x | constant _ x | monomial m =>
    cases b <;> simp_all [agrees]
  | negate e ih =>
    cases b <;> simp only [agrees, Bool.false_eq_true] at h
    rw [ih h]
  | binary op l r ihl ihr =>
    cases b <;> simp only [agrees, Bool.false_eq_true, Bool.and_eq_true, decide_eq_true_eq] at h
    rw [h.1.1, ihl h.1.2, ihr h.2]
  | call name args ih => cases b <;> cases h

/-- A run that ends in a tree that agrees with `r` ends in `r`. -/
theorem eq_ok_of_agrees {ε : Type} {x : Except ε (Expr α)} {r : Expr α}
    (h : x.toOption.any (fun e => e.agrees r) = true) : x = .ok r := by
  cases x with
  | error err => cases h
  | ok e => rw [eq_of_agrees h]

end

end SymbolicAlgebra.Expr
