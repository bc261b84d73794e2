import Mathlib.Data.Set.Function
import SymbolicAlgebra.Proofs.Rewrite.Census

/-!
# Renaming the variables of a tree

`Expr.rename f` puts `f v` in the place of every variable `v` and leaves the
names of constants and functions alone. Rewriting asks a tree for its shape,
for its numbers, whether it equals another tree and whether it is a monomial of
the target. `Separates f S target target'` is what the answers need to stay as
they are: `f` keeps the variables in `S` apart, and the target, but none of the
others, goes to the new target.

Results:
* `rename_id`: renaming every variable to itself changes nothing.
* `isLiteral_rename`, `same_rename`, `isTarget_rename`: what rewriting asks of a
  tree it is told of the renamed tree too.
* `separates_of_injective`: an injective renaming keeps all variables apart.
* `separates_id`: where neither of two targets is a variable, one serves as the
  other.
-/
namespace SymbolicAlgebra

variable {α : Type}

/-- The monomial of the renamed variable. -/
def Monomial.rename (f : String → String) (m : Monomial α) : Monomial α :=
  { m with var := f m.var }

namespace Expr

mutual

/-- A tree with its variables renamed. -/
def rename (f : String → String) : Expr α → Expr α
  | .number x => .number x
  | .constant name x => .constant name x
  | .monomial m => .monomial (m.rename f)
  | .negate e => .negate (rename f e)
  | .binary op l r => .binary op (rename f l) (rename f r)
  | .call name args => .call name (renameAll f args)

/-- A list of trees with their variables renamed. -/
def renameAll (f : String → String) : List (Expr α) → List (Expr α)
  | [] => []
  | e :: es => rename f e :: renameAll f es

end

theorem renameAll_eq_map (f : String → String) : ∀ es : List (Expr α),
    renameAll f es = es.map (rename f)
  | [] => rfl
  | e :: es => by rw [renameAll, renameAll_eq_map f es, List.map_cons]

/-- Renaming every variable to itself changes nothing. -/
theorem rename_id (e : Expr α) : e.rename id = e := by
  induction e with
  | number x | constant name x | monomial m => rfl
  | negate e ih => rw [rename, ih]
  | binary op l r ihl ihr => rw [rename, ihl, ihr]
  | call name args ih =>
    rw [rename, renameAll_eq_map, List.map_congr_left ih, List.map_id']

@[simp] theorem isMonomial_rename (f : String → String) (e : Expr α) :
    (e.rename f).isMonomial = e.isMonomial := by
  cases e <;> rfl

@[simp] theorem isLiteral_rename [Scalar α] (f : String → String) (n : Nat) (e : Expr α) :
    (e.rename f).isLiteral n = e.isLiteral n := by
  cases e <;> rfl

/-! ## The variables of a tree -/

/-- Every variable of the tree is in `S`. -/
def Over (S : Set String) (e : Expr α) : Prop := ∀ v, .var v ∈ e.symbols → v ∈ S

section
variable {S : Set String} {e l r : Expr α}

theorem over_iff_subtrees :
    Over S e ↔ ∀ s ∈ e.subtrees, ∀ v, s.symbol? = some (.var v) → v ∈ S := by
  simp only [Over, symbols, List.mem_filterMap]
  constructor
  · intro h s hs v hv
    exact h v ⟨s, hs, hv⟩
  · intro h v hv
    obtain ⟨s, hs, hv⟩ := hv
    exact h s hs v hv

theorem over_monomial {m : Monomial α} : Over S (.monomial m) ↔ m.var ∈ S := by
  rw [over_iff_subtrees, forall_subtrees_monomial]
  simp [symbol?]

theorem over_negate : Over S (.negate e) ↔ Over S e := by
  simp [over_iff_subtrees, forall_subtrees_negate, symbol?]

theorem over_binary {op : Operator} : Over S (.binary op l r) ↔ Over S l ∧ Over S r := by
  simp [over_iff_subtrees, forall_subtrees_binary, symbol?]

theorem over_call {name : String} {args : List (Expr α)} :
    Over S (.call name args) ↔ ∀ e ∈ args, Over S e := by
  simp only [over_iff_subtrees, forall_subtrees_call]
  simp [symbol?]

theorem over_univ (e : Expr α) : Over Set.univ e := fun _ _ => trivial

end

/-! ## Renamings that rewriting does not notice -/

/-- `f` keeps the variables in `S` apart, and among them it takes `target` alone to `target'`. -/
structure Separates (f : String → String) (S : Set String) (target target' : String) : Prop where
  injOn : Set.InjOn f S
  target_iff : ∀ v ∈ S, f v = target' ↔ v = target

theorem separates_of_injective {f : String → String} (hf : Function.Injective f)
    (target : String) : Separates f Set.univ target (f target) where
  injOn := hf.injOn
  target_iff _ _ := hf.eq_iff

theorem separates_id {S : Set String} {target target' : String} (h : target ∉ S)
    (h' : target' ∉ S) : Separates id S target target' where
  injOn := Function.injective_id.injOn
  target_iff _ hv := iff_of_false (ne_of_mem_of_not_mem hv h') (ne_of_mem_of_not_mem hv h)

section
variable {f : String → String} {S : Set String} {target target' : String}

namespace Separates

theorem beq_eq (hf : Separates f S target target') {v w : String} (hv : v ∈ S) (hw : w ∈ S) :
    (f v == f w) = (v == w) := by
  rw [Bool.eq_iff_iff, beq_iff_eq, beq_iff_eq, hf.injOn.eq_iff hv hw]

theorem beq_target (hf : Separates f S target target') {v : String} (hv : v ∈ S) :
    (f v == target') = (v == target) := by
  rw [Bool.eq_iff_iff, beq_iff_eq, beq_iff_eq, hf.target_iff v hv]

end Separates

/-- A renamed monomial is one of the new target if the monomial is one of the target. -/
theorem isTarget_rename (hf : Separates f S target target') {e : Expr α} (he : Over S e) :
    (e.rename f).isTarget target' = e.isTarget target := by
  cases e with
  | monomial m => exact hf.beq_target (over_monomial.mp he)
  | _ => rfl

variable [Scalar α]

theorem sameAll_rename : ∀ {as bs : List (Expr α)},
    (∀ a ∈ as, ∀ b, Over S b → (a.rename f).same (b.rename f) = a.same b) →
      (∀ b ∈ bs, Over S b) → sameAll (renameAll f as) (renameAll f bs) = sameAll as bs
  | [], [], _, _ => rfl
  | [], _ :: _, _, _ => rfl
  | _ :: _, [], _, _ => rfl
  | a :: as, b :: bs, h, hb => by
    obtain ⟨hb, hbs⟩ := List.forall_mem_cons.mp hb
    rw [renameAll, renameAll, sameAll, sameAll, h a (by simp) b hb,
      sameAll_rename (fun a ha => h a (by simp [ha])) hbs]

/-- Renamed trees are equal if the trees are. -/
theorem same_rename (hf : Separates f S target target') {a b : Expr α} (ha : Over S a)
    (hb : Over S b) : (a.rename f).same (b.rename f) = a.same b := by
  induction a generalizing b with
  | number x | constant name x => cases b <;> rfl
  | negate a ih =>
    cases b with
    | negate b => exact ih (over_negate.mp ha) (over_negate.mp hb)
    | _ => rfl
  | binary op l r ihl ihr =>
    cases b with
    | binary op' l' r' =>
      obtain ⟨hl, hr⟩ := over_binary.mp ha
      obtain ⟨hl', hr'⟩ := over_binary.mp hb
      rw [rename, rename, same, same, ihl hl hl', ihr hr hr']
    | _ => rfl
  | call name args ih =>
    cases b with
    | call name' args' =>
      have hargs := over_call.mp ha
      rw [rename, rename, same, same,
        sameAll_rename (fun a ha b hb => ih a ha (hargs a ha) hb) (over_call.mp hb)]
    | _ => rfl
  | monomial m =>
    cases b with
    | monomial n =>
      have hvar := hf.beq_eq (over_monomial.mp ha) (over_monomial.mp hb)
      simp only [rename, same, Monomial.same, Monomial.rename, hvar]
    | _ => rfl

/-- Two renamed trees repeat each other if the trees do. -/
theorem repeats_rename (hf : Separates f S target target') {l r : Expr α} (hl : Over S l)
    (hr : Over S r) : (l.rename f).repeats (r.rename f) = l.repeats r := by
  rw [repeats, repeats, same_rename hf hl hr, isMonomial_rename, isMonomial_rename]

end

end Expr
end SymbolicAlgebra
