import SymbolicAlgebra.Proofs.Exact.Rules
import SymbolicAlgebra.Proofs.Rewrite.Settle

/-!
# Simplification keeps values

A pass is a sequence of rules and a folding a sequence of operations on
literals, each at one place in the tree, so both keep the value of a tame tree,
and so does the simplifier over any number of rounds.

Results:
* `simplify_tame`: what the simplifier makes of a tame tree is tame, has the
  tree's value and is left alone by a pass.
* `simplify_value`: the same value, with what makes a tree tame written out.
-/
namespace SymbolicAlgebra.Interpretation

open SymbolicAlgebra.Expr (Contracts Collapses)

variable {K : Type} [Field K] [LinearOrder K] [FloorRing K] [PartialPower K]
variable {I : Interpretation K} {e e' r : Expr (Exact K)} {v : K}
variable {target : String} {ceiling : Nat}

/-! ## One round -/

/-- Replacing an operation on literals by its result keeps the value. -/
theorem preserves_collapses : I.Preserves Collapses := by
  intro a b v h ht hv
  cases h with
  | @literals op x y z hz _ =>
    have hop : op ≠ .mod := by
      intro hop
      rw [hop] at ht
      exact (tame_binary.mp ht).1
    obtain ⟨c, d, hc, hd, hcd⟩ := value_binary.mp hv
    refine ⟨tame_number, ?_⟩
    rw [value_number, Exact.result?_get? (absurd · hop) hz]
    exact Exact.zip_get?_eq_some.mpr ⟨c, d, by simpa using hc, by simpa using hd, hcd⟩

/-- A folding keeps the value of a tame tree. -/
theorem preserves_fold (h : Expr.fold e = .ok e') (ht : I.Tame e) (hv : I.value e = some v) :
    I.Tame e' ∧ I.value e' = some v := by
  have hstep := (preserves_collapses (I := I)).within fun x b h => by cases h
  exact hstep.steps (Expr.fold_collapses h) ht hv

/-- A tree is tame if it takes no remainder, its monomials have positive exponents and none of its
bases is zero. -/
theorem tame_of_nonzero_bases (hrem : ∀ l r, .binary .mod l r ∉ e.subtrees)
    (hexp : ∀ m, .monomial m ∈ e.subtrees → ∃ x, m.exponent.get? = some x ∧ 0 < x)
    (hbase : ∀ b x, .binary .pow b x ∈ e.subtrees → I.value b ≠ some 0) : I.Tame e := by
  intro s hs
  cases s with
  | monomial m => exact hexp m hs
  | binary op l r =>
    cases op with
    | mod => exact absurd hs (hrem l r)
    | pow => exact .inl (hbase l r hs)
    | _ => trivial
  | _ => trivial

variable [IsStrictOrderedRing K]

theorem preserves_contracts (target : String) : I.Preserves (Contracts target) :=
  fun _ _ _ h ht hv => ⟨tame_of_contracts h ht, value_of_contracts h ht.allows hv⟩

/-- A pass keeps the value of a tame tree. -/
theorem preserves_pass (target : String) (ht : I.Tame e) (hv : I.value e = some v) :
    I.Tame (Expr.pass target e).value ∧ I.value (Expr.pass target e).value = some v := by
  have hstep := (preserves_contracts (I := I) target).within fun x b h => by cases h
  rcases Expr.pass_progress target e with hp | ⟨-, hsteps⟩
  · rw [hp]; exact ⟨ht, hv⟩
  · exact hstep.steps hsteps.to_reflTransGen ht hv

/-! ## Whole runs -/

/-- What the simplifier makes of a tame tree is tame, has its value, and is left alone by a
pass. -/
theorem simplify_tame (ht : I.Tame e) (hv : I.value e = some v)
    (h : (Expr.simplify target ceiling e).outcome = .ok r) :
    I.Tame r ∧ I.value r = some v ∧ Expr.pass target r = pure r := by
  have hround : ∀ a b, I.Tame a ∧ I.value a = some v →
      Expr.fold (Expr.pass target a).value = .ok b → I.Tame b ∧ I.value b = some v := by
    intro a b hab hfold
    obtain ⟨htp, hvp⟩ := preserves_pass target hab.1 hab.2
    exact preserves_fold hfold htp hvp
  obtain ⟨⟨hr, hvr⟩, hp, -⟩ := Expr.simplify_induction
    (p := fun e => I.Tame e ∧ I.value e = some v) hround ⟨ht, hv⟩ h
  exact ⟨hr, hvr, hp⟩

/-- If a tree takes no remainder, has only positive exponents in its monomials and has a value at
an assignment where none of its bases is zero, what the simplifier returns has that value too. -/
theorem simplify_value {t : Expr (Exact K)} (hrem : ∀ l r, .binary .mod l r ∉ t.subtrees)
    (hexp : ∀ m, .monomial m ∈ t.subtrees → ∃ x, m.exponent.get? = some x ∧ 0 < x)
    (hbase : ∀ b x, .binary .pow b x ∈ t.subtrees → I.value b ≠ some 0)
    (hv : I.value t = some v) (h : (Expr.simplify target ceiling t).outcome = .ok r) :
    I.value r = some v :=
  (simplify_tame (tame_of_nonzero_bases hrem hexp hbase) hv h).2.1

/-- `(x - 1) * (x - 1) + (3 * (x / 2) + y ^ -(2))` at `x = 1` and `y = 2`. The base that squaring
makes is zero there. -/
theorem simplify_value_square :
    let I : Interpretation ℚ := ⟨fun name => if name = "x" then 1 else 2, fun _ _ => none,
      fun _ _ => none⟩
    let x : Expr (Exact ℚ) := .monomial ⟨⟨some 1⟩, "x", ⟨some 1⟩⟩
    let y : Expr (Exact ℚ) := .monomial ⟨⟨some 1⟩, "y", ⟨some 1⟩⟩
    let base : Expr (Exact ℚ) := .binary .sub x (.literal 1)
    let t := .binary .add (.binary .mul base base) (.binary .add
      (.binary .mul (.literal 3) (.binary .div x (.literal 2)))
      (.binary .pow y (.negate (.literal 2))))
    let r := .binary .add (.binary .pow base (.literal 2)) (.binary .add
      (.monomial ⟨⟨some (3 / 2)⟩, "x", ⟨some 1⟩⟩)
      (.binary .div (.literal 1) (.binary .pow y (.literal 2))))
    I.value t = some (7 / 4) ∧ (Expr.simplify "z" 4 t).outcome = .ok r ∧
      I.value r = some (7 / 4) := by
  intro I x y base t r
  have hv : I.value t = some (7 / 4) := by decide +kernel
  have hr : (Expr.simplify "z" 4 t).outcome = .ok r := eq_ok_of_same (by decide +kernel)
  refine ⟨hv, hr, simplify_value ?_ ?_ ?_ hv hr⟩
  · intro l r h
    simp [t, base, x, y, Expr.subtrees, Expr.literal] at h
  · intro m h
    have hm : m = ⟨⟨some 1⟩, "x", ⟨some 1⟩⟩ ∨ m = ⟨⟨some 1⟩, "y", ⟨some 1⟩⟩ := by
      simpa [t, base, x, y, Expr.subtrees, Expr.literal] using h
    rcases hm with rfl | rfl <;> exact ⟨1, rfl, one_pos⟩
  · intro b e h
    have hb : b = y := by
      simp [t, base, x, y, Expr.subtrees, Expr.literal] at h
      exact h.1
    rw [hb]
    decide +kernel

end SymbolicAlgebra.Interpretation
