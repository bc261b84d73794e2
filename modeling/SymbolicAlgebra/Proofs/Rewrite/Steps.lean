import Mathlib.Data.List.Forall2
import Mathlib.Logic.Relation
import SymbolicAlgebra.Proofs.Expr.Subtree
import SymbolicAlgebra.Proofs.Rewrite.Contraction
import SymbolicAlgebra.Rewrite.Simplify

/-!
# Passes and foldings as sequences of steps

`Within R` applies a relation `R` at one place in a tree. A pass is a sequence
of rule applications and a folding is a sequence of literal operations, each
at one place, so what every single step keeps, a whole pass and a whole
folding keep too.

Results:
* `pass_progress`: a pass notes nothing and leaves the tree as it is, or it
  notes something and is a sequence of at least one step.
* `pass_eq_pure_iff`: a pass fires no rule exactly where no rule applies to
  any subtree.
* `fold_collapses`: a folding is a sequence of literal operations.
* `fold_fold`: a folding is its own folding.
* `fold_subtrees`: a tree that is its own folding consists of such trees.
* `fold_error`: a folding fails only at an equation between literals.
-/
namespace SymbolicAlgebra

/-- A sequence of two computations succeeds when both do. -/
theorem except_bind_eq_ok {ε β γ : Type} {x : Except ε β} {f : β → Except ε γ} {c : γ} :
    x >>= f = .ok c ↔ ∃ b, x = .ok b ∧ f b = .ok c := by
  cases x with
  | error e =>
    constructor
    · intro h; cases h
    · intro h
      obtain ⟨b, hb, -⟩ := h
      cases hb
  | ok b =>
    constructor
    · intro h; exact ⟨b, rfl, h⟩
    · intro h
      obtain ⟨b', hb, hc⟩ := h
      cases hb
      exact hc

theorem except_bind_eq_error {ε β γ : Type} {x : Except ε β} {f : β → Except ε γ} {err : ε} :
    x >>= f = .error err ↔ x = .error err ∨ ∃ b, x = .ok b ∧ f b = .error err := by
  cases x with
  | error e =>
    constructor
    · intro h; cases h; exact .inl rfl
    · intro h
      rcases h with h | ⟨b, hb, -⟩
      · cases h; rfl
      · cases hb
  | ok b =>
    constructor
    · intro h; exact .inr ⟨b, rfl, h⟩
    · intro h
      rcases h with h | ⟨b', hb, hf⟩
      · cases h
      · cases hb
        exact hf

/-- A list of computations succeeds when each does. -/
theorem except_mapM_eq_ok {ε β γ : Type} {f : β → Except ε γ} : ∀ {xs : List β} {ys : List γ},
    xs.mapM f = .ok ys ↔ List.Forall₂ (fun x y => f x = .ok y) xs ys
  | [], ys => by
    rw [List.mapM_nil, List.forall₂_nil_left_iff]
    exact ⟨fun h => by cases h; rfl, fun h => by rw [h]; rfl⟩
  | x :: xs, ys => by
    simp only [List.mapM_cons, except_bind_eq_ok, List.forall₂_cons_left_iff, except_mapM_eq_ok]
    constructor
    · intro h
      obtain ⟨y, hy, ys, hys, h⟩ := h
      cases h
      exact ⟨y, ys, hy, hys, rfl⟩
    · intro h
      obtain ⟨y, ys, hy, hys, rfl⟩ := h
      exact ⟨y, hy, ys, hys, rfl⟩

theorem exists_mapM_eq_ok {ε β γ : Type} {f : β → Except ε γ} {xs : List β} :
    (∃ ys, xs.mapM f = .ok ys) ↔ ∀ x ∈ xs, ∃ y, f x = .ok y := by
  simp only [except_mapM_eq_ok]
  induction xs with
  | nil => simp
  | cons x xs ih =>
    rw [List.forall_mem_cons, ← ih]
    constructor
    · intro h
      obtain ⟨_, _ | ⟨hy, hys⟩⟩ := h
      exact ⟨⟨_, hy⟩, ⟨_, hys⟩⟩
    · intro h
      obtain ⟨⟨y, hy⟩, ⟨ys, hys⟩⟩ := h
      exact ⟨y :: ys, .cons hy hys⟩

/-- What relates the members of one list to those of another, given that they correspond. -/
theorem forall₂_of_mem {β γ : Type} {R S : β → γ → Prop} {bs : List β} {cs : List γ}
    (h : ∀ b ∈ bs, ∀ c, R b c → S b c) (hR : List.Forall₂ R bs cs) : List.Forall₂ S bs cs :=
  ((List.forall₂_and_left _ _).mpr ⟨h, hR⟩).imp fun _ c h => h.1 c h.2

namespace Expr

open Relation

variable {α : Type}

/-- A relation applied at one place in a tree. -/
inductive Within (R : Expr α → Expr α → Prop) : Expr α → Expr α → Prop
  | root {a b} : R a b → Within R a b
  | negate {a b} : Within R a b → Within R (.negate a) (.negate b)
  | left {op a b r} : Within R a b → Within R (.binary op a r) (.binary op b r)
  | right {op l a b} : Within R a b → Within R (.binary op l a) (.binary op l b)
  | argument {name before a b after} : Within R a b →
      Within R (.call name (before ++ a :: after)) (.call name (before ++ b :: after))

variable [Scalar α]

/-- An operation on two literals replaced by its whole result. -/
inductive Collapses : Expr α → Expr α → Prop
  | literals {op : Operator} {a b x : α} : op.result? a b = some x → Scalar.isWhole x = true →
      Collapses (.binary op (.number a) (.number b)) (.number x)

/-! ## A pass -/

/-- `t` comes from `e` by firing no rule at all, or by one or more steps. -/
def Progress (target : String) (e : Expr α) (t : Traced (Event α) (Expr α)) : Prop :=
  t = pure e ∨ t.events ≠ [] ∧ TransGen (Within (Contracts target)) e t.value

variable {target : String} {e e' : Expr α}

theorem progress_contract? (e : Expr α) :
    Progress target e (Traced.ofStep (contract? target e) e) := by
  cases h : contract? target e with
  | none => exact .inl rfl
  | some step =>
    obtain ⟨ev, e'⟩ := step
    exact .inr ⟨by simp [Traced.ofStep], .single (.root (contracts_of_contract? h))⟩

/-- Progress inside a context `C` followed by progress from there on. -/
theorem progress_bind {C : Expr α → Expr α} {t : Traced (Event α) (Expr α)}
    {k : Expr α → Traced (Event α) (Expr α)}
    (hC : ∀ a b, Within (Contracts target) a b → Within (Contracts target) (C a) (C b))
    (h : Progress target e t) (hk : ∀ e', Progress target (C e') (k e')) :
    Progress target (C e) (t >>= k) := by
  rcases h with rfl | ⟨hev, hsteps⟩
  · rw [pure_bind]; exact hk e
  · refine .inr ⟨by simp [hev], ?_⟩
    have hlift := TransGen.lift C hC e t.value hsteps
    rcases hk t.value with hq | ⟨-, hmore⟩
    · rw [Traced.value_bind, hq]; exact hlift
    · exact hlift.trans hmore

/-- The operands of a call are rewritten from left to right, the ones in `before` already being. -/
theorem progress_passAll (name : String) : ∀ (args before : List (Expr α)),
    (∀ e ∈ args, Progress target e (pass target e)) →
    Progress target (.call name (before ++ args))
      (passAll target args >>= fun args => pure (.call name (before ++ args)))
  | [], before, _ => .inl (by rw [passAll, pure_bind])
  | e :: es, before, h => by
    rw [passAll, bind_assoc]
    refine progress_bind (C := fun a => .call name (before ++ a :: es))
      (fun a b hab => .argument hab) (h e (by simp)) fun e' => ?_
    have ih := progress_passAll name es (before ++ [e']) fun a ha => h a (by simp [ha])
    simpa [bind_assoc] using ih

/-- A pass fires no rule and changes nothing, or it is a sequence of steps. -/
theorem pass_progress (target : String) (e : Expr α) : Progress target e (pass target e) := by
  induction e with
  | number x => exact .inl rfl
  | constant name x => exact .inl rfl
  | monomial m => exact progress_contract? (.monomial m)
  | negate e ih => exact progress_bind (fun _ _ => .negate) ih fun e' => progress_contract? _
  | binary op l r ihl ihr =>
    refine progress_bind (C := fun l => .binary op l r) (fun _ _ => .left) ihl fun l' => ?_
    exact progress_bind (fun _ _ => .right) ihr fun r' => progress_contract? _
  | call name args ih => exact progress_passAll name args [] ih

/-! ### Passes that fire nothing -/

theorem Progress.eq_pure_iff {t : Traced (Event α) (Expr α)} (h : Progress target e t) :
    t = pure e ↔ t.events = [] := by
  rcases h with rfl | ⟨hev, -⟩
  · simp
  · exact ⟨fun ht => by rw [ht]; rfl, fun hn => absurd hn hev⟩

theorem bind_eq_pure_iff {C : Expr α → Expr α} {t : Traced (Event α) (Expr α)}
    {k : Expr α → Traced (Event α) (Expr α)}
    (hC : ∀ a b, Within (Contracts target) a b → Within (Contracts target) (C a) (C b))
    (h : Progress target e t) (hk : ∀ e', Progress target (C e') (k e')) :
    t >>= k = pure (C e) ↔ t = pure e ∧ k e = pure (C e) := by
  rw [(progress_bind hC h hk).eq_pure_iff, Traced.events_bind, List.append_eq_nil_iff,
    ← h.eq_pure_iff, and_congr_right_iff]
  intro ht
  subst ht
  exact (hk e).eq_pure_iff.symm

theorem ofStep_eq_pure_iff (target : String) (e : Expr α) :
    Traced.ofStep (contract? target e) e = pure e ↔ contract? target e = none := by
  rw [(progress_contract? e).eq_pure_iff]
  cases contract? target e with
  | none => simp [Traced.ofStep]
  | some step => simp [Traced.ofStep]

theorem passAll_eq_pure_iff (name : String) : ∀ (args before : List (Expr α)),
    (passAll target args >>= fun args => pure (Expr.call name (before ++ args))) =
        pure (Expr.call name (before ++ args)) ↔ ∀ e ∈ args, pass target e = pure e
  | [], before => by simp [passAll]
  | e :: es, before => by
    have ih := passAll_eq_pure_iff name es (before ++ [e])
    have hk : ∀ e', Progress target (.call name (before ++ e' :: es))
        (passAll target es >>= fun es => pure (.call name (before ++ e' :: es))) := by
      intro e'
      have hes : ∀ a ∈ es, Progress target a (pass target a) := fun a _ => pass_progress target a
      simpa [bind_assoc] using progress_passAll name es (before ++ [e']) hes
    rw [passAll, bind_assoc, List.forall_mem_cons, ← ih]
    simp only [bind_assoc, pure_bind, List.append_assoc, List.singleton_append]
    exact bind_eq_pure_iff (C := fun a => .call name (before ++ a :: es))
      (fun a b hab => .argument hab) (pass_progress target e) hk

/-- A pass fires no rule exactly where none fires at any subtree. -/
theorem pass_eq_pure_iff :
    pass target e = pure e ↔ ∀ s ∈ e.subtrees, contract? target s = none := by
  induction e with
  | number x => simp [forall_subtrees_number, contract?, pass]
  | constant name x => simp [forall_subtrees_constant, contract?, pass]
  | monomial m => rw [forall_subtrees_monomial]; exact ofStep_eq_pure_iff target (.monomial m)
  | negate e ih =>
    rw [forall_subtrees_negate, ← ih, and_comm, ← ofStep_eq_pure_iff target]
    exact bind_eq_pure_iff (fun _ _ => .negate) (pass_progress target e)
      fun e' => progress_contract? _
  | binary op l r ihl ihr =>
    have hr : ∀ l', Progress target (.binary op l' r)
        (pass target r >>= fun r => Traced.ofStep (binaryStep? target op l' r) (.binary op l' r)) :=
      fun l' => progress_bind (fun _ _ => .right) (pass_progress target r)
        fun r' => progress_contract? _
    rw [forall_subtrees_binary, ← ihl, ← ihr, and_comm, and_assoc, ← ofStep_eq_pure_iff target]
    refine (bind_eq_pure_iff (C := fun l => .binary op l r) (fun _ _ => .left)
      (pass_progress target l) hr).trans (and_congr_right fun _ => ?_)
    exact bind_eq_pure_iff (fun _ _ => .right) (pass_progress target r)
      fun r' => progress_contract? _
  | call name args ih =>
    have hroot : contract? target (.call name args) = none := rfl
    rw [forall_subtrees_call, and_iff_right hroot]
    exact (passAll_eq_pure_iff name args []).trans
      (forall₂_congr fun e he => ih e he)

/-! ## Folding -/

theorem fold_negate_eq_ok : fold (.negate e) = .ok e' ↔ ∃ a, fold e = .ok a ∧ .negate a = e' := by
  rw [fold, except_bind_eq_ok]
  simp [pure, Except.pure]

theorem fold_binary_eq_ok {op : Operator} {l r : Expr α} :
    fold (.binary op l r) = .ok e' ↔
      ∃ a, fold l = .ok a ∧ ∃ b, fold r = .ok b ∧ foldBinary op a b = .ok e' := by
  rw [fold, except_bind_eq_ok]
  simp only [except_bind_eq_ok]

theorem foldAll_eq_mapM : ∀ es : List (Expr α), foldAll es = es.mapM fold
  | [] => rfl
  | e :: es => by rw [foldAll, foldAll_eq_mapM es, List.mapM_cons]

theorem foldAll_eq_ok {es es' : List (Expr α)} :
    foldAll es = .ok es' ↔ List.Forall₂ (fun e e' => fold e = .ok e') es es' := by
  rw [foldAll_eq_mapM, except_mapM_eq_ok]

theorem fold_call_eq_ok {name : String} {args : List (Expr α)} :
    fold (.call name args) = .ok e' ↔
      ∃ as, List.Forall₂ (fun e e' => fold e = .ok e') args as ∧ .call name as = e' := by
  rw [fold, except_bind_eq_ok]
  simp [foldAll_eq_ok, pure, Except.pure]

/-- A folded operation is collapsed, or it is left as it is because its operands are not literals
or their result is not whole. -/
theorem foldBinary_eq_ok {op : Operator} {l r : Expr α} (h : foldBinary op l r = .ok e') :
    Collapses (.binary op l r) e' ∨
      e' = .binary op l r ∧ ∀ a b, l = .number a → r = .number b →
        ∃ x, op.result? a b = some x ∧ Scalar.isWhole x = false := by
  unfold foldBinary at h
  split at h
  · rename_i a b
    split at h
    · cases h
    · rename_i x hx
      by_cases hw : Scalar.isWhole x = true
      · rw [if_pos hw] at h; cases h; exact .inl (.literals hx hw)
      · rw [if_neg hw] at h; cases h
        refine .inr ⟨rfl, fun a' b' ha hb => ?_⟩
        cases ha; cases hb
        exact ⟨x, hx, by simpa using hw⟩
  · rename_i hn
    cases h
    exact .inr ⟨rfl, fun a b ha hb => (hn a b ha hb).elim⟩

theorem forall_mem_of_forall₂ {β γ : Type} {p : γ → Prop} {bs : List β} {cs : List γ}
    (h : List.Forall₂ (fun _ c => p c) bs cs) : ∀ c ∈ cs, p c := by
  induction h with
  | nil => simp
  | cons hc _ ih => exact List.forall_mem_cons.mpr ⟨hc, ih⟩

theorem collapses_call {name : String} {es es' : List (Expr α)}
    (h : List.Forall₂ (fun e e' => ReflTransGen (Within Collapses) e e') es es') :
    ∀ before : List (Expr α), ReflTransGen (Within Collapses)
      (.call name (before ++ es)) (.call name (before ++ es')) := by
  induction h with
  | nil => exact fun before => .refl
  | @cons e e' es es' he _ ih =>
    intro before
    have hhead := ReflTransGen.lift (p := Within Collapses)
      (fun a => Expr.call name (before ++ a :: es)) (fun a b hab => Within.argument hab) e e' he
    have htail := ih (before ++ [e'])
    simp only [List.append_assoc, List.singleton_append] at htail
    exact hhead.trans htail

/-- A folding is a sequence of literal operations. -/
theorem fold_collapses (h : fold e = .ok e') : ReflTransGen (Within Collapses) e e' := by
  induction e generalizing e' with
  | number x | constant name x | monomial m => cases h; exact .refl
  | negate e ih =>
    obtain ⟨a, ha, rfl⟩ := fold_negate_eq_ok.mp h
    exact ReflTransGen.lift Expr.negate (fun _ _ => .negate) e a (ih ha)
  | binary op l r ihl ihr =>
    obtain ⟨a, ha, b, hb, hab⟩ := fold_binary_eq_ok.mp h
    have hl := ReflTransGen.lift (p := Within Collapses) (fun l => Expr.binary op l r)
      (fun _ _ => Within.left) l a (ihl ha)
    have hr := ReflTransGen.lift (p := Within Collapses) (Expr.binary op a)
      (fun _ _ => Within.right) r b (ihr hb)
    have hlr := hl.trans hr
    rcases foldBinary_eq_ok hab with hc | ⟨rfl, -⟩
    · exact hlr.tail (.root hc)
    · exact hlr
  | call name args ih =>
    obtain ⟨as, has, rfl⟩ := fold_call_eq_ok.mp h
    exact collapses_call (forall₂_of_mem (fun e he _ hfold => ih e he hfold) has) []

/-- A folding is its own folding. -/
theorem fold_fold (h : fold e = .ok e') : fold e' = .ok e' := by
  induction e generalizing e' with
  | number x | constant name x | monomial m => cases h; rfl
  | negate e ih =>
    obtain ⟨a, ha, rfl⟩ := fold_negate_eq_ok.mp h
    exact fold_negate_eq_ok.mpr ⟨a, ih ha, rfl⟩
  | binary op l r ihl ihr =>
    obtain ⟨a, ha, b, hb, hab⟩ := fold_binary_eq_ok.mp h
    rcases foldBinary_eq_ok hab with ⟨-, -⟩ | ⟨rfl, -⟩
    · rfl
    · exact fold_binary_eq_ok.mpr ⟨a, ihl ha, b, ihr hb, hab⟩
  | call name args ih =>
    obtain ⟨as, has, rfl⟩ := fold_call_eq_ok.mp h
    refine fold_call_eq_ok.mpr ⟨as, List.forall₂_same.mpr ?_, rfl⟩
    exact forall_mem_of_forall₂ (forall₂_of_mem (fun e he _ hfold => ih e he hfold) has)

/-- A tree that is its own folding consists of such trees. -/
theorem fold_subtrees (h : fold e = .ok e) : ∀ s ∈ e.subtrees, fold s = .ok s := by
  induction e with
  | number x => exact forall_subtrees_number.mpr h
  | constant name x => exact forall_subtrees_constant.mpr h
  | monomial m => exact forall_subtrees_monomial.mpr h
  | negate e ih =>
    obtain ⟨a, ha, he⟩ := fold_negate_eq_ok.mp h
    cases he
    exact forall_subtrees_negate.mpr ⟨h, ih ha⟩
  | binary op l r ihl ihr =>
    obtain ⟨a, ha, b, hb, hab⟩ := fold_binary_eq_ok.mp h
    rcases foldBinary_eq_ok hab with hc | ⟨he, -⟩
    · cases hc
    · cases he
      exact forall_subtrees_binary.mpr ⟨h, ihl ha, ihr hb⟩
  | call name args ih =>
    obtain ⟨as, has, he⟩ := fold_call_eq_ok.mp h
    cases he
    exact forall_subtrees_call.mpr ⟨h, fun e he => ih e he (List.forall₂_same.mp has e he)⟩

theorem foldAll_error : ∀ {es : List (Expr α)} {err : RewriteError α},
    foldAll es = .error err → ∃ e ∈ es, fold e = .error err
  | [], err, h => by cases h
  | e :: es, err, h => by
    simp only [foldAll, except_bind_eq_error] at h
    rcases h with h | ⟨a, -, h | ⟨as, -, h⟩⟩
    · exact ⟨e, by simp, h⟩
    · obtain ⟨b, hb, hf⟩ := foldAll_error h
      exact ⟨b, by simp [hb], hf⟩
    · cases h

/-- A folding fails only at an equation between literals. -/
theorem fold_error {err : RewriteError α} (h : fold e = .error err) : err = .equality := by
  induction e with
  | number x | constant name x | monomial m => cases h
  | negate e ih =>
    rw [fold, except_bind_eq_error] at h
    rcases h with h | ⟨a, -, h⟩
    · exact ih h
    · cases h
  | binary op l r ihl ihr =>
    simp only [fold, except_bind_eq_error] at h
    rcases h with h | ⟨a, -, h | ⟨b, -, h⟩⟩
    · exact ihl h
    · exact ihr h
    · unfold foldBinary at h
      split at h
      · split at h <;> cases h; rfl
      · cases h
  | call name args ih =>
    rw [fold, except_bind_eq_error] at h
    rcases h with h | ⟨as, -, h⟩
    · obtain ⟨e, he, hf⟩ := foldAll_error h
      exact ih e he hf
    · cases h

end Expr
end SymbolicAlgebra
