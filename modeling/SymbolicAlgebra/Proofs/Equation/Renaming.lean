import Mathlib.Logic.Equiv.Basic
import SymbolicAlgebra.Proofs.Equation.Limit
import SymbolicAlgebra.Proofs.Rewrite.Renaming

/-!
# Answers do not depend on names

A transposition asks which operand is a monomial of the target, and the loop
that isolates a variable stops where an equation equals the one before. Both
answers stay as they are under a renaming that keeps the variables of the
equation apart and takes the target alone to the new one, so both runs make the
same moves and stop at the same step. An injective renaming is such a renaming.
So is the one that renames nothing, from any target that is no variable of the
tree to any other: what cannot be moved is not noticed.

Results:
* `transpose?_rename`: the same transposition is found.
* `settle_rename`, `isolate_rename`: the loop, for every ceiling.
* `simplify_of_absent`, `isolate_of_absent`: targets that do not occur all give
  the same outcome.
* `outcome_rename`: the outcomes of simplifying and of isolating a variable are
  renamed with the tree, and no absent target has a part in them.
-/
namespace SymbolicAlgebra

variable {α : Type} {f : String → String} {S : Set String} {target target' : String}
variable {ceiling : Nat}

namespace Equation

open SymbolicAlgebra.Expr (Separates over_binary over_negate over_monomial isTarget_rename)

/-- An equation with its variables renamed. -/
def rename (f : String → String) (e : Equation α) : Equation α := ⟨e.lhs.rename f, e.rhs.rename f⟩

/-- Every variable of both sides is in `S`. -/
def Over (S : Set String) (e : Equation α) : Prop := e.toExpr.Over S

variable {e s : Equation α}

theorem over_iff : Over S e ↔ e.lhs.Over S ∧ e.rhs.Over S := over_binary

theorem rename_toExpr (f : String → String) (e : Equation α) :
    (e.rename f).toExpr = e.toExpr.rename f := rfl

/-! ## One transposition -/

/-- Of two operands the same one is found to be the target. -/
theorem firstTarget_rename (hf : Separates f S target target') {a b : Expr α} (ha : a.Over S)
    (hb : b.Over S) (x y : Transposition × Equation α) :
    (if (a.rename f).isTarget target' then some (x.map id (rename f))
      else if (b.rename f).isTarget target' then some (y.map id (rename f)) else none) =
    (if a.isTarget target then some x
      else if b.isTarget target then some y else none).map (Prod.map id (rename f)) := by
  rw [isTarget_rename hf ha, isTarget_rename hf hb]
  split; · rfl
  split <;> rfl

theorem fromLeftSum?_rename (hf : Separates f S target target') (he : Over S e) :
    (e.rename f).fromLeftSum? target' =
      (e.fromLeftSum? target).map (Prod.map id (rename f)) := by
  obtain ⟨lhs, rhs⟩ := e
  cases lhs with
  | binary op a b =>
    obtain ⟨ha, hb⟩ := over_binary.mp (over_iff.mp he).1
    cases op with
    | add =>
      exact firstTarget_rename hf ha hb (.leftAugend, ⟨a, .binary .sub rhs b⟩)
        (.leftAddend, ⟨b, .binary .sub rhs a⟩)
    | _ => rfl
  | _ => rfl

theorem fromRightSum?_rename (hf : Separates f S target target') (he : Over S e) :
    (e.rename f).fromRightSum? target' =
      (e.fromRightSum? target).map (Prod.map id (rename f)) := by
  obtain ⟨lhs, rhs⟩ := e
  cases rhs with
  | binary op a b =>
    obtain ⟨ha, hb⟩ := over_binary.mp (over_iff.mp he).2
    cases op with
    | add =>
      exact firstTarget_rename hf ha hb (.rightAugend, ⟨.binary .sub lhs a, b⟩)
        (.rightAddend, ⟨.binary .sub lhs b, a⟩)
    | _ => rfl
  | _ => rfl

theorem fromLeftDifference?_rename (hf : Separates f S target target') (he : Over S e) :
    (e.rename f).fromLeftDifference? target' =
      (e.fromLeftDifference? target).map (Prod.map id (rename f)) := by
  obtain ⟨lhs, rhs⟩ := e
  cases lhs with
  | binary op a b =>
    obtain ⟨ha, hb⟩ := over_binary.mp (over_iff.mp he).1
    cases op with
    | sub =>
      exact firstTarget_rename hf ha hb (.leftMinuend, ⟨a, .binary .add rhs b⟩)
        (.leftSubtrahend, ⟨b, .binary .add (.negate rhs) a⟩)
    | _ => rfl
  | _ => rfl

theorem fromRightDifference?_rename (hf : Separates f S target target') (he : Over S e) :
    (e.rename f).fromRightDifference? target' =
      (e.fromRightDifference? target).map (Prod.map id (rename f)) := by
  obtain ⟨lhs, rhs⟩ := e
  cases rhs with
  | binary op a b =>
    obtain ⟨ha, hb⟩ := over_binary.mp (over_iff.mp he).2
    cases op with
    | sub =>
      exact firstTarget_rename hf ha hb (.rightMinuend, ⟨.binary .sub lhs a, .negate b⟩)
        (.rightSubtrahend, ⟨.binary .add lhs b, a⟩)
    | _ => rfl
  | _ => rfl

theorem fromNegation?_rename (hf : Separates f S target target') (he : Over S e) :
    (e.rename f).fromNegation? target' =
      (e.fromNegation? target).map (Prod.map id (rename f)) := by
  obtain ⟨lhs, rhs⟩ := e
  cases lhs with
  | negate a =>
    have ha := over_negate.mp (over_iff.mp he).1
    simp only [rename, Expr.rename, fromNegation?, isTarget_rename hf ha]
    split <;> rfl
  | _ => rfl

variable [Scalar α]

theorem fromCoefficient?_rename (hf : Separates f S target target') (he : Over S e) :
    (e.rename f).fromCoefficient? target' =
      (e.fromCoefficient? target).map (Prod.map id (rename f)) := by
  obtain ⟨lhs, rhs⟩ := e
  cases lhs with
  | monomial m =>
    have hm := hf.target_iff m.var (over_monomial.mp (over_iff.mp he).1)
    simp only [rename, Expr.rename, Monomial.rename, fromCoefficient?, hm]
    split <;> rfl
  | _ => rfl

/-- The same transposition applies to a renamed equation and gives the renamed one. -/
theorem transpose?_rename (hf : Separates f S target target') (he : Over S e) :
    (e.rename f).transpose? target' = (e.transpose? target).map (Prod.map id (rename f)) := by
  simp only [transpose?, Option.orElse_eq_orElse, Option.orElse_eq_or, Option.map_or,
    fromLeftSum?_rename hf he, fromRightSum?_rename hf he, fromLeftDifference?_rename hf he,
    fromRightDifference?_rename hf he, fromNegation?_rename hf he, fromCoefficient?_rename hf he]

theorem transpose_rename (hf : Separates f S target target') (he : Over S e) :
    (transpose target' (e.rename f)).value = (transpose target e).value.rename f := by
  rw [transpose, transpose, transpose?_rename hf he]
  cases e.transpose? target <;> rfl

/-! ## The equations on the way -/

omit [Scalar α] in
/-- An equation with no more variables of any name stays over the same ones. -/
theorem Over.of_count_le (he : Over S e) (hle : ∀ a : Expr.Symbol,
    count (fun e => e.symbol? = some a) s ≤ count (fun e => e.symbol? = some a) e) : Over S s := by
  have hroot : ∀ (a : Expr.Symbol) (e : Equation α),
      Expr.count (fun e => e.symbol? = some a) e.toExpr = count (fun e => e.symbol? = some a) e :=
    fun a e => Expr.count_binary_eq .equals e.lhs e.rhs
  refine Expr.Over.of_count_le he fun a => ?_
  rw [hroot, hroot]
  exact hle a

theorem Over.transpose (he : Over S e) (target : String) :
    Over S (transpose target e).value :=
  he.of_count_le fun a => (count_transpose (Expr.marks_symbol a) target e).le

theorem Over.normalize (he : Over S e) (h : (normalize target ceiling e).outcome = .ok s) :
    Over S s :=
  he.of_count_le fun a => count_normalize_le (Expr.marks_symbol a) h

theorem same_rename (hf : Separates f S target target') (he : Over S e) (hs : Over S s) :
    (e.rename f).same (s.rename f) = e.same s := by
  obtain ⟨hl, hr⟩ := over_iff.mp he
  obtain ⟨hl', hr'⟩ := over_iff.mp hs
  simp only [same, rename, Expr.same_rename hf hl hl', Expr.same_rename hf hr hr']

/-- Normalizing a renamed equation gives the renamed result. -/
theorem normalize_rename (hf : Separates f S target target') (he : Over S e) (ceiling : Nat) :
    (normalize target' ceiling (e.rename f)).outcome =
      (normalize target ceiling e).outcome.map (rename f) := by
  obtain ⟨hl, hr⟩ := over_iff.mp he
  simp only [normalize, rename, Attempt.outcome_bind, Expr.simplify_rename hf hl,
    Expr.simplify_rename hf hr]
  cases (e.lhs.simplify target ceiling).outcome with
  | error err => rfl
  | ok lhs => cases (e.rhs.simplify target ceiling).outcome <;> rfl

/-- The loop over a renamed equation stops at the same step as the loop over the equation, with the
renamed result. -/
theorem settle_rename (hf : Separates f S target target') (he : Over S e) (ceiling left : Nat) :
    (settle target' ceiling left (e.rename f)).outcome =
      (settle target ceiling left e).outcome.map (rename f) := by
  induction left generalizing e with
  | zero => rfl
  | succ left ih =>
    have hmoved := he.transpose target
    have hnorm := normalize_rename hf hmoved ceiling
    rw [← transpose_rename hf he] at hnorm
    cases hn : (normalize target ceiling (transpose target e).value).outcome with
    | error err =>
      rw [hn] at hnorm
      rw [settle_outcome_of_error hn, settle_outcome_of_error hnorm]
      rfl
    | ok s =>
      rw [hn] at hnorm
      have hs := hmoved.normalize hn
      have hsame := same_rename hf hs he
      cases h : s.same e with
      | true =>
        rw [settle_outcome_of_same hn h, settle_outcome_of_same hnorm (hsame.trans h)]
        rfl
      | false =>
        rw [settle_outcome_of_not_same hn h, settle_outcome_of_not_same hnorm (hsame.trans h)]
        exact ih hs

/-- Isolating the new target in a renamed equation gives the renamed result. -/
theorem isolate_rename (hf : Separates f S target target') (he : Over S e) (ceiling : Nat) :
    (isolate target' ceiling (e.rename f)).outcome =
      (isolate target ceiling e).outcome.map (rename f) := by
  have hnorm := normalize_rename hf he ceiling
  simp only [isolate, Attempt.outcome_bind, hnorm]
  cases hn : (normalize target ceiling e).outcome with
  | error err => rfl
  | ok start => exact settle_rename hf (he.normalize hn) ceiling ceiling

/-- So does isolating it in the tree of the equation. -/
theorem isolate_toExpr_rename (hf : Separates f S target target') (he : Over S e) (ceiling : Nat) :
    ((e.toExpr.rename f).isolate target' ceiling).outcome =
      (e.toExpr.isolate target ceiling).outcome.map (Expr.rename f) := by
  rw [← rename_toExpr, isolate_toExpr_outcome, isolate_toExpr_outcome, isolate_rename hf he]
  cases (isolate target ceiling e).outcome <;> rfl

end Equation

namespace Expr

variable [Scalar α] {e : Expr α}

/-! ## Targets that do not occur -/

omit [Scalar α] in
theorem map_rename_id {ε : Type} (x : Except ε (Expr α)) : x.map (rename id) = x := by
  cases x with
  | error err => rfl
  | ok e => exact congrArg Except.ok (rename_id e)

omit [Scalar α] in
/-- For a tree in which neither of two targets occurs, one serves as the other. -/
theorem separates_of_absent (h : .var target ∉ e.symbols) (h' : .var target' ∉ e.symbols) :
    Separates id {v | .var v ∈ e.symbols} target target' :=
  separates_id h h'

/-- Simplifying does not depend on which absent target is given. -/
theorem simplify_of_absent (h : .var target ∉ e.symbols) (h' : .var target' ∉ e.symbols)
    (ceiling : Nat) :
    (simplify target' ceiling e).outcome = (simplify target ceiling e).outcome := by
  have hrename := simplify_rename (separates_of_absent h h') (fun _ hv => hv) ceiling
  rwa [rename_id, map_rename_id] at hrename

/-- Nor does isolating, whether the tree is an equation or not. -/
theorem isolate_of_absent (h : .var target ∉ e.symbols) (h' : .var target' ∉ e.symbols)
    (ceiling : Nat) : (e.isolate target' ceiling).outcome = (e.isolate target ceiling).outcome := by
  cases hroot : Equation.ofExpr? e with
  | none =>
    have hrefused : ∀ target : String,
        (e.isolate target ceiling).outcome = .error (.notEquation e) := by
      intro target
      simp only [isolate, asEquation, hroot, Attempt.outcome_bind, Attempt.outcome_ofExcept]
      rfl
    rw [hrefused, hrefused]
  | some equation =>
    obtain rfl := Equation.toExpr_of_ofExpr? hroot
    have hrename := Equation.isolate_toExpr_rename (separates_of_absent h h') (fun _ hv => hv)
      ceiling
    rwa [rename_id, map_rename_id] at hrename

/-- Answers do not depend on how variables are named. An injective renaming of a tree and of the
target renames what the simplifier gives and what isolating the target in an equation gives, and
changes no error, at every ceiling. Two targets that occur nowhere in a tree have the same outcome
throughout. -/
theorem outcome_rename (ceiling : Nat) :
    (∀ f : String → String, Function.Injective f → ∀ target : String,
      (∀ e : Expr α, (simplify (f target) ceiling (e.rename f)).outcome =
        (simplify target ceiling e).outcome.map (rename f)) ∧
      ∀ e : Equation α, ((e.toExpr.rename f).isolate (f target) ceiling).outcome =
        (e.toExpr.isolate target ceiling).outcome.map (rename f)) ∧
    ∀ (e : Expr α) (target target' : String),
      .var target ∉ e.symbols → .var target' ∉ e.symbols →
        (simplify target' ceiling e).outcome = (simplify target ceiling e).outcome ∧
          (e.isolate target' ceiling).outcome = (e.isolate target ceiling).outcome := by
  constructor
  · intro f hf target
    have hseparates := separates_of_injective hf target
    constructor
    · intro e
      exact simplify_rename hseparates (over_univ e) ceiling
    · intro e
      exact Equation.isolate_toExpr_rename hseparates (over_univ e.toExpr) ceiling
  · intro e target target' h h'
    exact ⟨simplify_of_absent h h' ceiling, isolate_of_absent h h' ceiling⟩

/-- With `x` and `y` exchanged, `(x + 1) - y` still has its target moved outward, `2 * x + 4 = y`
is still solved, and in neither does it matter which of `z` and `w` one asks for. -/
theorem outcome_rename_exchanged :
    let f : String → String := Equiv.swap "x" "y"
    let x : Expr Float := .monomial ⟨1.0, "x", 1.0⟩
    let y : Expr Float := .monomial ⟨1.0, "y", 1.0⟩
    let difference : Expr Float := .binary .sub (.binary .add x (.number 1.0)) y
    let e : Equation Float :=
      ⟨.binary .add (.binary .mul (.number 2.0) x) (.number 4.0), y⟩
    Function.Injective f ∧
      (simplify "y" 8 (difference.rename f)).outcome =
        .ok (.binary .add (.binary .add (.negate x) (.number 1.0)) y) ∧
      ((e.toExpr.rename f).isolate "y" 8).outcome =
        .ok (.binary .equals y (.binary .div (.binary .sub x (.number 4.0)) (.number 2.0))) ∧
      .var "z" ∉ e.toExpr.symbols ∧ .var "w" ∉ e.toExpr.symbols ∧
      (e.toExpr.isolate "w" 8).outcome = (e.toExpr.isolate "z" 8).outcome := by
  intro f x y difference e
  have hf : Function.Injective f := (Equiv.swap "x" "y").injective
  have htarget : f "x" = "y" := Equiv.swap_apply_left "x" "y"
  obtain ⟨hrenamed, habsent⟩ := outcome_rename (α := Float) 8
  obtain ⟨hsimplify, hisolate⟩ := hrenamed f hf "x"
  have hz : .var "z" ∉ e.toExpr.symbols := by decide
  have hw : .var "w" ∉ e.toExpr.symbols := by decide
  refine ⟨hf, ?_, ?_, hz, hw, (habsent e.toExpr "z" "w" hz hw).2⟩
  · rw [← htarget, hsimplify difference]
    rfl
  · rw [← htarget, hisolate e]
    rfl

end Expr
end SymbolicAlgebra
