import SymbolicAlgebra.Proofs.Expr.Renaming
import SymbolicAlgebra.Proofs.Rewrite.Settle

/-!
# Rewriting a renamed tree

The rules look at variables in two ways: they compare them, and they ask
whether one is the target. So where a renaming keeps the variables of a tree
apart and takes the target alone to the new one, the same rule fires at the
renamed node and gives the renamed tree. A pass fires rules at the same places
then, a folding sees no variable at all, and the loop stops at the same round,
because renamed trees are equal exactly where the trees are.

Results:
* `Over.pass`, `Over.fold`: no variable comes in on the way.
* `binaryRule?_rename`, `negationRule?_rename`, `monomialRule?_rename`,
  `distribute?_rename`: the rules at one node.
* `contract?_rename`: whatever fires at a node.
* `pass_rename`, `fold_rename`: a whole pass and a whole folding.
* `settle_rename`, `simplify_rename`: the loop, for every ceiling.
-/
namespace SymbolicAlgebra

theorem Traced.value_ofStep {τ β : Type} (step : Option (τ × β)) (x : β) :
    (ofStep step x).value = (step.map Prod.snd).getD x := by
  cases step <;> rfl

variable {α : Type} [Scalar α] {f : String → String} {S : Set String} {target target' : String}

namespace Expr

variable {e e' l r : Expr α}

/-! ## The variables of the trees on the way -/

omit [Scalar α] in
/-- A tree with no more variables of any name stays over the same ones. -/
theorem Over.of_count_le (h : Over S e)
    (hle : ∀ s : Symbol, count (fun e => e.symbol? = some s) e' ≤
      count (fun e => e.symbol? = some s) e) : Over S e' := by
  intro v hv
  refine h v (mem_symbols_iff_count.mpr ?_)
  exact Nat.lt_of_lt_of_le (mem_symbols_iff_count.mp hv) (hle (.var v))

theorem Over.pass (h : Over S e) (target : String) :
    Over S (Expr.pass target e).value :=
  h.of_count_le fun s => (marks_symbol s).count_pass_le target e

theorem Over.fold (h : Over S e) (hf : Expr.fold e = .ok e') : Over S e' :=
  h.of_count_le fun s => (marks_symbol s).count_fold_le hf

/-! ## Rules of an operator -/

section
variable (hf : Separates f S target target') (hl : Over S l) (hr : Over S r)

include hf hl hr

theorem sumRule?_rename :
    sumRule? (l.rename f) (r.rename f) = (sumRule? l r).map (Prod.map id (rename f)) := by
  simp only [sumRule?, isLiteral_rename, repeats_rename hf hl hr]
  split; · rfl
  split; · rfl
  split; · rfl
  cases r <;> rfl

theorem differenceRule?_rename : differenceRule? (l.rename f) (r.rename f) =
    (differenceRule? l r).map (Prod.map id (rename f)) := by
  simp only [differenceRule?, isLiteral_rename, same_rename hf hl hr]
  split; · rfl
  split; · rfl
  split; · rfl
  cases r <;> rfl

theorem productRule?_rename : productRule? (l.rename f) (r.rename f) =
    (productRule? l r).map (Prod.map id (rename f)) := by
  simp only [productRule?, isLiteral_rename, repeats_rename hf hl hr]
  split; · rfl
  split; · rfl
  split; · rfl
  split; · rfl
  split; · rfl
  cases l with
  | number n =>
    cases r with
    | binary op b c =>
      simp only [rename]
      split <;> rfl
    | _ => rfl
  | binary op a b =>
    cases r with
    | binary op' a' c =>
      cases op with
      | pow =>
        cases op' with
        | pow =>
          -- two powers are combined if their bases are equal
          have ha := (over_binary.mp hl).1
          have ha' := (over_binary.mp hr).1
          simp only [rename, same_rename hf ha ha']
          split <;> rfl
        | _ => rfl
      | _ => rfl
    | _ => cases op <;> rfl
  | _ => rfl

theorem quotientRule?_rename : quotientRule? (l.rename f) (r.rename f) =
    (quotientRule? l r).map (Prod.map id (rename f)) := by
  simp only [quotientRule?, isLiteral_rename, same_rename hf hl hr]
  split; · rfl
  cases l with
  | monomial m =>
    cases r with
    | number n => rfl
    | _ =>
      simp only [rename]
      split <;> rfl
  | _ =>
    simp only [rename]
    split <;> rfl

omit hf hl hr in
theorem powerRule?_rename (l r : Expr α) :
    powerRule? (l.rename f) (r.rename f) = (powerRule? l r).map (Prod.map id (rename f)) := by
  simp only [powerRule?, isLiteral_rename]
  split; · rfl
  split; · rfl
  cases r with
  | negate e => cases e <;> rfl
  | _ => rfl

/-- The same rule of an operator matches renamed operands. -/
theorem binaryRule?_rename (op : Operator) : binaryRule? op (l.rename f) (r.rename f) =
    (binaryRule? op l r).map (Prod.map id (rename f)) := by
  cases op with
  | add => exact sumRule?_rename hf hl hr
  | sub => exact differenceRule?_rename hf hl hr
  | mul => exact productRule?_rename hf hl hr
  | div => exact quotientRule?_rename hf hl hr
  | pow => exact powerRule?_rename l r
  | mod | equals => rfl

end

omit [Scalar α] in
theorem negationRule?_rename (f : String → String) (e : Expr α) :
    negationRule? (e.rename f) = (negationRule? e).map (Prod.map id (rename f)) := by
  cases e with
  | binary op l r =>
    simp only [rename, negationRule?]
    split; · rfl
    split <;> rfl
  | _ => rfl

theorem monomialRule?_rename (f : String → String) (m : Monomial α) :
    monomialRule? (m.rename f) = (monomialRule? m).map (Prod.map id (rename f)) := by
  simp only [monomialRule?, apply_ite (Option.map _)]
  rfl

/-! ## Monomials -/

theorem like_rename (hf : Separates f S target target') {m n : Monomial α} (hm : m.var ∈ S)
    (hn : n.var ∈ S) : (m.rename f).like (n.rename f) = m.like n := by
  simp only [Monomial.like, Monomial.rename, hf.beq_eq hm hn]

/-- The same monomials are combined. -/
theorem merge?_rename (hf : Separates f S target target') {m n : Monomial α} (hm : m.var ∈ S)
    (hn : n.var ∈ S) (op : Operator) :
    (m.rename f).merge? op (n.rename f) = (m.merge? op n).map (Monomial.rename f) := by
  have hvar : ((m.rename f).var != (n.rename f).var) = (m.var != n.var) :=
    congrArg not (hf.beq_eq hm hn)
  simp only [Monomial.merge?, hvar, like_rename hf hm hn]
  split; · rfl
  cases op with
  | add | sub => simp only []; split <;> rfl
  | _ => rfl

omit [Scalar α] in
/-- The same monomials of the target are moved outward. -/
theorem hoist?_rename (hf : Separates f S target target') (hl : Over S l) (hr : Over S r)
    (op : Operator) : hoist? target' op (l.rename f) (r.rename f) =
      (hoist? target op l r).map (Prod.map id (rename f)) := by
  cases l with
  | binary inner a b =>
    cases r with
    | monomial m =>
      obtain ⟨ha, hb⟩ := over_binary.mp hl
      have hm := hf.target_iff m.var (over_monomial.mp hr)
      simp only [rename, hoist?, Monomial.rename, hm, isTarget_rename hf ha, isTarget_rename hf hb]
      split; · rfl
      split; · rfl
      split
      · -- the monomial changes its sign under a difference
        cases op <;> rfl
      · rfl
    | _ => rfl
  | _ => rfl

theorem distribute?_rename (hf : Separates f S target target') (hl : Over S l) (hr : Over S r)
    (op : Operator) : (distribute? target' op (l.rename f) (r.rename f)).map Prod.snd =
      (distribute? target op l r).map fun step => step.2.rename f := by
  cases l with
  | monomial m =>
    cases r with
    | monomial n =>
      simp only [rename, distribute?, merge?_rename hf (over_monomial.mp hl) (over_monomial.mp hr)]
      cases m.merge? op n <;> rfl
    | _ => rfl
  | binary inner a b =>
    have hoisted := hoist?_rename hf hl hr op
    simp only [rename] at hoisted
    simp only [rename, distribute?, hoisted]
    cases hoist? target op (.binary inner a b) r <;> rfl
  | _ => rfl

/-! ## One node -/

omit [Scalar α] in
theorem fired_rename (f : String → String) (m : Match α) :
    (fired (m.map (Prod.map id (rename f)))).map Prod.snd =
      (fired m).map fun step => step.2.rename f := by
  cases m <;> rfl

theorem binaryStep?_of_ne {op : Operator} (hop : op ≠ .equals) (target : String) (l r : Expr α) :
    binaryStep? target op l r = (fired (binaryRule? op l r)).or (distribute? target op l r) := by
  cases op with
  | equals => exact absurd rfl hop
  | _ => simp only [binaryStep?, Option.orElse_eq_orElse, Option.orElse_eq_or]

theorem binaryStep?_rename (hf : Separates f S target target') (hl : Over S l) (hr : Over S r)
    (op : Operator) : (binaryStep? target' op (l.rename f) (r.rename f)).map Prod.snd =
      (binaryStep? target op l r).map fun step => step.2.rename f := by
  by_cases hop : op = .equals
  · subst hop
    rfl
  · rw [binaryStep?_of_ne hop, binaryStep?_of_ne hop, Option.map_or, Option.map_or,
      binaryRule?_rename hf hl hr op, fired_rename, distribute?_rename hf hl hr op]

/-- What fires at a node of a renamed tree gives the renamed result. -/
theorem contract?_rename (hf : Separates f S target target') (he : Over S e) :
    (contract? target' (e.rename f)).map Prod.snd =
      (contract? target e).map fun step => step.2.rename f := by
  cases e with
  | monomial m => rw [rename, contract?, monomialRule?_rename, fired_rename, contract?]
  | negate e => rw [rename, contract?, negationRule?_rename, fired_rename, contract?]
  | binary op l r =>
    obtain ⟨hl, hr⟩ := over_binary.mp he
    exact binaryStep?_rename hf hl hr op
  | number _ | call _ _ | constant _ _ => rfl

/-- A node of a renamed tree becomes the renamed node. -/
theorem step_rename (hf : Separates f S target target') (he : Over S e) :
    (Traced.ofStep (contract? target' (e.rename f)) (e.rename f)).value =
      (Traced.ofStep (contract? target e) e).value.rename f := by
  rw [Traced.value_ofStep, contract?_rename hf he, Traced.value_ofStep]
  cases contract? target e <;> rfl

/-! ## A pass -/

theorem passAll_value (target : String) : ∀ es : List (Expr α),
    (passAll target es).value = es.map fun e => (pass target e).value
  | [] => rfl
  | e :: es => congrArg ((pass target e).value :: ·) (passAll_value target es)

/-- A pass over a renamed tree gives the renamed result. -/
theorem pass_rename (hf : Separates f S target target') (he : Over S e) :
    (pass target' (e.rename f)).value = (pass target e).value.rename f := by
  induction e with
  | number x | constant name x => rfl
  | monomial m => exact step_rename hf he
  | negate e ih =>
    have hinner := over_negate.mp he
    have hpassed : Over S (.negate (pass target e).value) := over_negate.mpr (hinner.pass target)
    rw [rename, pass, Traced.value_bind, ih hinner]
    exact step_rename hf hpassed
  | binary op l r ihl ihr =>
    obtain ⟨hl, hr⟩ := over_binary.mp he
    have hpassed : Over S (.binary op (pass target l).value (pass target r).value) :=
      over_binary.mpr ⟨hl.pass target, hr.pass target⟩
    rw [rename, pass, Traced.value_bind, Traced.value_bind, ihl hl, ihr hr]
    exact step_rename hf hpassed
  | call name args ih =>
    have hargs := over_call.mp he
    have hpassed : ∀ e ∈ args,
        (pass target' (e.rename f)).value = (pass target e).value.rename f :=
      fun e hmem => ih e hmem (hargs e hmem)
    simp only [rename, pass, Traced.value_bind, Traced.value_pure, passAll_value, renameAll_eq_map,
      List.map_map]
    exact congrArg (Expr.call name) (List.map_congr_left hpassed)

/-! ## A folding -/

theorem foldBinary_rename (f : String → String) (op : Operator) (l r : Expr α) :
    foldBinary op (l.rename f) (r.rename f) = (foldBinary op l r).map (rename f) := by
  cases l with
  | number a =>
    cases r with
    | number b =>
      simp only [rename, foldBinary]
      cases op.result? a b with
      | none => rfl
      | some x => simp only [apply_ite (rename f), Except.map, rename]
    | _ => rfl
  | _ => rfl

theorem foldAll_rename (f : String → String) : ∀ es : List (Expr α),
    (∀ e ∈ es, fold (e.rename f) = (fold e).map (rename f)) →
      foldAll (renameAll f es) = (foldAll es).map (renameAll f)
  | [], _ => rfl
  | e :: es, h => by
    obtain ⟨he, hes⟩ := List.forall_mem_cons.mp h
    rw [renameAll, foldAll, foldAll, he, foldAll_rename f es hes]
    cases fold e with
    | error err => rfl
    | ok e => cases foldAll es <;> rfl

/-- A folding sees no variable. -/
theorem fold_rename (f : String → String) (e : Expr α) :
    fold (e.rename f) = (fold e).map (rename f) := by
  induction e with
  | number x | constant name x | monomial m => rfl
  | negate e ih =>
    rw [rename, fold, fold, ih]
    cases fold e <;> rfl
  | binary op l r ihl ihr =>
    rw [rename, fold, fold, ihl, ihr]
    cases fold l with
    | error err => rfl
    | ok l =>
      cases fold r with
      | error err => rfl
      | ok r => exact foldBinary_rename f op l r
  | call name args ih =>
    rw [rename, fold, fold, foldAll_rename f args ih]
    cases foldAll args <;> rfl

/-! ## The loop -/

/-- A pass changes a renamed tree if it changes the tree. -/
theorem same_pass_rename (hf : Separates f S target target') (he : Over S e) :
    (pass target' (e.rename f)).value.same (e.rename f) = (pass target e).value.same e := by
  rw [pass_rename hf he, same_rename hf (he.pass target) he]

/-- The loop over a renamed tree ends in the same round as the loop over the tree, with the renamed
result. -/
theorem settle_rename (hf : Separates f S target target') (he : Over S e) (ceiling left : Nat) :
    (settle target' ceiling left (e.rename f)).outcome =
      (settle target ceiling left e).outcome.map (rename f) := by
  induction left generalizing e with
  | zero => rfl
  | succ left ih =>
    have hsame := same_pass_rename hf he
    cases hs : (pass target e).value.same e with
    | true =>
      rw [settle_outcome_of_same hs, settle_outcome_of_same (hsame.trans hs), pass_rename hf he]
      rfl
    | false =>
      rw [settle_outcome_of_not_same hs, settle_outcome_of_not_same (hsame.trans hs),
        pass_rename hf he, fold_rename]
      cases hfold : fold (pass target e).value with
      | error err => rfl
      | ok next => exact ih ((he.pass target).fold hfold)

/-- Simplifying a renamed tree for the new target gives the renamed result. -/
theorem simplify_rename (hf : Separates f S target target') (he : Over S e) (ceiling : Nat) :
    (simplify target' ceiling (e.rename f)).outcome =
      (simplify target ceiling e).outcome.map (rename f) := by
  rw [simplify_outcome, simplify_outcome, pass_rename hf he, fold_rename]
  cases hfold : fold (pass target e).value with
  | error err => rfl
  | ok next => exact settle_rename hf ((he.pass target).fold hfold) ceiling ceiling

end Expr
end SymbolicAlgebra
