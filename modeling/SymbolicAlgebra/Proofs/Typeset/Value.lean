import SymbolicAlgebra.Proofs.Reading.Instantiation
import SymbolicAlgebra.Proofs.Typeset.Front
import SymbolicAlgebra.Proofs.Typeset.Grouped

/-!
# Whether a typeset text tells the value

Trees that are read, are grouped as their text is read and show the same text have
the same value wherever both have one: their rows of factors are alike, so they
read alike, and within fractions and calls the same holds of smaller trees. Where
a node is grouped otherwise the value can be another one.

Results:
* `Shows.value_eq`: what shows the same text has the same value.
* `typeset_determines_value`: so it is of trees that are read and grouped like that.
* `typeset_regroups`: texts that read as trees of one typeset text and of two values.
-/
namespace SymbolicAlgebra

open Binary64
open Denotes (denote)

namespace Interpretation

variable {K : Type} [Field K] [LinearOrder K] [FloorRing K] [PartialPower K] [Denotes Float K]
variable {I : Interpretation K} {a b e s : Expr Float} {args args' : List (Expr Float)} {v w : K}

/-! ## Parts that have a value -/

/-- Each argument of a call with a value has one. -/
theorem exists_value_of_mem {as : List K} (h : I.values (Expr.mapAll denote args) = some as) :
    ∀ e ∈ args, ∃ u, I.value (e.map denote) = some u := by
  induction args generalizing as with
  | nil => exact List.forall_mem_nil _
  | cons a args ih =>
    simp only [Expr.mapAll, values, Option.bind_eq_bind, Option.bind_eq_some_iff] at h
    obtain ⟨u, hu, us, hus, -⟩ := h
    exact List.forall_mem_cons.mpr ⟨⟨u, hu⟩, ih hus⟩

/-- Each part of a tree with a value has one. -/
theorem exists_value_of_mem_subtrees (hv : I.value (e.map denote) = some v) :
    ∀ s ∈ e.subtrees, ∃ u, I.value (s.map denote) = some u := by
  induction e generalizing v with
  | number _ => exact Expr.forall_subtrees_number.mpr ⟨v, hv⟩
  | constant _ _ => exact Expr.forall_subtrees_constant.mpr ⟨v, hv⟩
  | monomial _ => exact Expr.forall_subtrees_monomial.mpr ⟨v, hv⟩
  | negate e ih =>
    obtain ⟨u, hu, -⟩ := value_negate.mp hv
    exact Expr.forall_subtrees_negate.mpr ⟨⟨v, hv⟩, ih hu⟩
  | binary op l r ihl ihr =>
    obtain ⟨x, y, hx, hy, -⟩ := value_binary.mp hv
    exact Expr.forall_subtrees_binary.mpr ⟨⟨v, hv⟩, ihl hx, ihr hy⟩
  | call name args ih =>
    obtain ⟨as, has, -⟩ := value_call.mp hv
    refine Expr.forall_subtrees_call.mpr ⟨⟨v, hv⟩, fun e he => ?_⟩
    obtain ⟨u, hu⟩ := exists_value_of_mem has e he
    exact ih e he hu

end Interpretation

namespace Expr

theorem sizeOf_le_of_mem_subtrees {e s : Expr Float} (h : s ∈ e.subtrees) :
    sizeOf s ≤ sizeOf e := by
  suffices hall : ∀ s ∈ e.subtrees, sizeOf s ≤ sizeOf e from hall s h
  clear h
  induction e with
  | number _ => exact forall_subtrees_number.mpr (Nat.le_refl _)
  | constant _ _ => exact forall_subtrees_constant.mpr (Nat.le_refl _)
  | monomial _ => exact forall_subtrees_monomial.mpr (Nat.le_refl _)
  | negate e ih =>
    refine forall_subtrees_negate.mpr ⟨Nat.le_refl _, fun s hs => (ih s hs).trans ?_⟩
    simp
  | binary op l r ihl ihr =>
    refine forall_subtrees_binary.mpr ⟨Nat.le_refl _, fun s hs => (ihl s hs).trans ?_,
      fun s hs => (ihr s hs).trans ?_⟩
    · simp only [Expr.binary.sizeOf_spec]; omega
    · simp only [Expr.binary.sizeOf_spec]; omega
  | call name args ih =>
    refine forall_subtrees_call.mpr ⟨Nat.le_refl _, fun e he s hs => (ih e he s hs).trans ?_⟩
    have := List.sizeOf_lt_of_mem he
    simp only [Expr.call.sizeOf_spec]; omega

end Expr

namespace Typeset

variable {K : Type} [Field K] [LinearOrder K] [FloorRing K] [PartialPower K] [Denotes Float K]
variable {I : Interpretation K} {a b e s : Expr Float} {v w : K}

/-- Whether a tree is a power. -/
def isPower : Expr Float → Bool
  | .binary .pow _ _ => true
  | _ => false

/-- No node of a tree is a power. Monomials have exponents of their own. -/
def PowerFree (e : Expr Float) : Prop := ∀ s ∈ e.subtrees, isPower s = false

/-- No factor of a tree, nor of a part of it, merges with what stands behind it. -/
def Clear (e : Expr Float) : Prop := ∀ s ∈ e.subtrees, Unmerged (factors .plus 0 s)

variable (I) in
/-- A tree that is as one that is read, is grouped as its text is read, has no powers, and has a
value with all of its parts. -/
structure Shows (e : Expr Float) : Prop where
  literate : e.Literate
  grouped : Grouped e
  powerFree : PowerFree e
  defined : ∀ s ∈ e.subtrees, ∃ u, I.value (s.map denote) = some u

theorem Shows.of_mem (h : Shows I e) (hs : s ∈ e.subtrees) : Shows I s where
  literate := Expr.forall_subtrees_of_mem h.literate s hs
  grouped := Expr.forall_subtrees_of_mem h.grouped s hs
  powerFree := Expr.forall_subtrees_of_mem h.powerFree s hs
  defined := Expr.forall_subtrees_of_mem h.defined s hs

theorem Clear.of_mem (h : Clear e) (hs : s ∈ e.subtrees) : Clear s :=
  Expr.forall_subtrees_of_mem h s hs

/-! ## Factors -/

/-- The text of a factor that has a value can be taken apart. -/
theorem Shows.front (hfinite : ∀ (x : Float) (k : K), (denote x).get? = some k → x.isFinite = true)
    (h : Shows I a) (hatom : isAtom a = true) : ∃ n w t, Front a n w t := by
  obtain ⟨v, hv⟩ := h.defined a a.self_mem_subtrees
  have hnode := h.literate a a.self_mem_subtrees
  cases a with
  | negate e => cases hatom
  | number x => exact ⟨_, _, _, .number (exists_figures_of_unsigned hnode (hfinite x v hv))⟩
  | monomial m =>
    obtain ⟨c, x, p, hc, -⟩ := Interpretation.value_monomial.mp hv
    exact ⟨_, _, _, .monomial (exists_figures_of_unsigned hnode.1 (hfinite _ c hc)) hnode.2⟩
  | constant name x =>
    obtain ⟨k, rfl, rfl⟩ := hnode
    exact ⟨_, _, _, .constant k⟩
  | call name args => exact ⟨_, _, _, .call hnode (Expr.forall_subtrees_call.mp h.literate).2⟩
  | binary op l r =>
    cases op with
    | add | sub | mul | mod => cases hatom
    | pow => cases h.powerFree _ (Expr.self_mem_subtrees _)
    | equals =>
      obtain ⟨_, _, -, -, hnone⟩ := Interpretation.value_binary.mp hv
      cases hnone
    | div =>
      obtain ⟨-, hl, hr⟩ := Expr.forall_subtrees_binary.mp h.literate
      exact ⟨_, _, _, .quotient hl hr⟩

theorem Agree.denote_eq {x y : Float} (h : Agree x y) : (denote x : Exact K) = denote y := by
  rcases h with ⟨hx, hy⟩ | h
  · rw [Denotes.denote_of_eqv hx, Denotes.denote_of_eqv hy]
  · exact Denotes.denote_of_same h

theorem values_eq {args args' : List (Expr Float)}
    (h : args.map Expr.typeset = args'.map Expr.typeset)
    (hvalue : ∀ a ∈ args, ∀ b ∈ args', a.typeset = b.typeset →
      I.value (a.map denote) = I.value (b.map denote)) :
    I.values (Expr.mapAll denote args) = I.values (Expr.mapAll denote args') := by
  induction args generalizing args' with
  | nil =>
    obtain rfl := List.map_eq_nil_iff.mp h.symm
    rfl
  | cons a args ih =>
    cases args' with
    | nil => cases h
    | cons b args' =>
      obtain ⟨hab, htail⟩ := List.cons.inj h
      have hhead := hvalue a List.mem_cons_self b List.mem_cons_self hab
      have htails := ih htail fun a ha b hb =>
        hvalue a (List.mem_cons_of_mem _ ha) b (List.mem_cons_of_mem _ hb)
      simp only [Expr.mapAll, Interpretation.values, hhead, htails]

/-- Alike factors have one value, if their parts of one text have. -/
theorem Alike.value_eq (h : Alike a b)
    (hparts : ∀ s ∈ a.subtrees, sizeOf s < sizeOf a → ∀ t ∈ b.subtrees, s.typeset = t.typeset →
      I.value (s.map denote) = I.value (t.map denote)) :
    I.value (a.map denote) = I.value (b.map denote) := by
  cases h with
  | number hxy => rw [Expr.map, Expr.map, Denotes.denote_of_same hxy]
  | monomial hc hvar hx => rw [Expr.map, Expr.map, hc.denote_eq, hvar, hx.denote_eq]
  | constant name x => rfl
  | @call args args' name htexts =>
    have hvalues := values_eq htexts fun a ha b hb htext =>
      hparts a ((Expr.forall_subtrees_call.mp fun _ h => h).2 a ha a a.self_mem_subtrees)
        (by
          have := List.sizeOf_lt_of_mem ha
          simp only [Expr.call.sizeOf_spec]; omega)
        b ((Expr.forall_subtrees_call.mp fun _ h => h).2 b hb b b.self_mem_subtrees) htext
    rw [Expr.map, Expr.map, Interpretation.value, Interpretation.value, hvalues]
  | @quotient l r l' r' hl hr =>
    have hmem : ∀ {l r : Expr Float}, l ∈ (Expr.binary .div l r).subtrees ∧
        r ∈ (Expr.binary .div l r).subtrees := fun {l r} => by
      simp [Expr.subtrees, Expr.self_mem_subtrees]
    have hvl := hparts l hmem.1 (by simp only [Expr.binary.sizeOf_spec]; omega) l' hmem.1 hl
    have hvr := hparts r hmem.2 (by simp only [Expr.binary.sizeOf_spec]; omega) r' hmem.2 hr
    rw [Expr.map, Expr.map, Interpretation.value, Interpretation.value, hvl, hvr]

/-! ## Rows -/

/-- Rows whose factors are joined alike, signed alike and of one value read alike. -/
theorem run_eq {fs gs : List Factor} (h : List.Forall₂ Factor.Alike fs gs)
    (hvalue : ∀ f ∈ fs, ∀ g ∈ gs, f.Alike g →
      I.value (f.atom.map denote) = I.value (g.atom.map denote)) (σ : Row K) :
    run I fs σ = run I gs σ := by
  induction h generalizing σ with
  | nil => rfl
  | @cons f g fs gs hfg _ ih =>
    have hstep : step I σ f = step I σ g := by
      rw [step, step, hvalue f List.mem_cons_self g List.mem_cons_self hfg, hfg.join, hfg.signs]
    have htail : run I fs = run I gs := funext (ih fun f hf g hg =>
      hvalue f (List.mem_cons_of_mem _ hf) g (List.mem_cons_of_mem _ hg))
    show (step I σ f).bind (run I fs) = (step I σ g).bind (run I gs)
    rw [hstep, htail]

theorem Shows.fronts
    (hfinite : ∀ (x : Float) (k : K), (denote x).get? = some k → x.isFinite = true)
    (h : Shows I e) : ∀ f ∈ factors .plus 0 e, ∃ n w t, Front f.atom n w t := fun _ hf =>
  (h.of_mem (atom_mem_subtrees hf).1).front hfinite (atom_mem_subtrees hf).2

/-- Only a monomial of the variable `e` can merge with what stands behind it. -/
theorem Shows.clear
    (hfinite : ∀ (x : Float) (k : K), (denote x).get? = some k → x.isFinite = true)
    (h : Shows I e) (hvar : ∀ m, .monomial m ∈ e.subtrees → m.var ≠ "e") : Clear e := by
  intro s hs before f after hrow hmerges
  have hf : f ∈ factors .plus 0 s := by simp [hrow]
  obtain ⟨n, w, t, hfront⟩ := (h.of_mem hs).fronts hfinite f hf
  obtain ⟨m, hatom, hm⟩ := hfront.monomial_of_merges hmerges
  have hmem : .monomial m ∈ e.subtrees :=
    hatom ▸ Expr.forall_subtrees_of_mem (fun _ h => h) s hs _ (atom_mem_subtrees hf).1
  exact hvar m hmem hm

/-- Trees that show one text have one value. -/
theorem Shows.value_eq
    (hfinite : ∀ (x : Float) (k : K), (denote x).get? = some k → x.isFinite = true)
    (ha : Shows I a) (hb : Shows I b) (hca : Clear a) (hcb : Clear b)
    (h : a.typeset = b.typeset) : I.value (a.map denote) = I.value (b.map denote) := by
  induction hsize : sizeOf a using Nat.strong_induction_on generalizing a b with
  | _ n ih =>
    subst hsize
    have hrows : chars (factors .plus 0 a) = chars (factors .plus 0 b) := by
      rw [chars_factors, chars_factors, h]
    have halike := alike_of_chars (ha.fronts hfinite) (hb.fronts hfinite)
      (hca a a.self_mem_subtrees) (hcb b b.self_mem_subtrees) hrows
    have hrun := run_eq (I := I) halike (fun f hf g hg hfg => hfg.atom.value_eq ?_) .empty
    · obtain ⟨v, hv⟩ := ha.defined a a.self_mem_subtrees
      obtain ⟨w, hw⟩ := hb.defined b b.self_mem_subtrees
      obtain ⟨τ, hτ, rfl⟩ := value_of_run ha.grouped hv
      obtain ⟨ρ, hρ, rfl⟩ := value_of_run hb.grouped hw
      rw [hτ, hρ] at hrun
      rw [hv, hw, Option.some.inj hrun]
    · -- the parts of a factor are smaller than the tree
      intro s hs hlt t ht hst
      obtain ⟨hfa, -⟩ := atom_mem_subtrees hf
      obtain ⟨hgb, -⟩ := atom_mem_subtrees hg
      have hsa := Expr.forall_subtrees_of_mem (fun _ h => h) _ hfa _ hs
      have htb := Expr.forall_subtrees_of_mem (fun _ h => h) _ hgb _ ht
      exact ih _ (hlt.trans_le (Expr.sizeOf_le_of_mem_subtrees hfa)) (ha.of_mem hsa)
        (hb.of_mem htb) (hca.of_mem hsa) (hcb.of_mem htb) hst rfl

/-! ## Trees that are read -/

/-- A tree that is read from a text and has a value. -/
theorem shows_of_ofText {text : String} (h : Expr.ofText text = .ok e) (hpower : PowerFree e)
    (hgrouped : Grouped e) (hv : I.value (e.map denote) = some v) : Shows I e :=
  ⟨Expr.literate_of_ofText h, hgrouped, hpower, Interpretation.exists_value_of_mem_subtrees hv⟩

/-- Trees that are read, have no powers, are grouped as their text is read and have one typeset
text have one value where both have any, if no factor in them merges with what stands behind it. -/
theorem typeset_determines_value {text text' : String}
    (hfinite : ∀ (x : Float) (k : K), (denote x).get? = some k → x.isFinite = true)
    (ha : Expr.ofText text = .ok a) (hb : Expr.ofText text' = .ok b) (hpa : PowerFree a)
    (hpb : PowerFree b) (hga : Grouped a) (hgb : Grouped b) (hca : Clear a) (hcb : Clear b)
    (h : a.typeset = b.typeset) (hv : I.value (a.map denote) = some v)
    (hw : I.value (b.map denote) = some w) : v = w := by
  have hshows := shows_of_ofText ha hpa hga hv
  have hvalue := hshows.value_eq hfinite (shows_of_ofText hb hpb hgb hw) hca hcb h
  rw [hv, hw] at hvalue
  exact Option.some.inj hvalue

end Typeset

/-! ## Runs on texts -/

namespace Binary64

/-- Only a finite double is a rational number. -/
theorem isFinite_of_denote {x : Float} {k : ℚ} (h : (denote x : Exact ℚ).get? = some k) :
    x.isFinite = true := by
  have hx : rational? x.toModel.unpack = some k := h
  show x.toModel.unpack.isFinite = true
  cases hu : x.toModel.unpack with
  | notANumber | infinity _ =>
    rw [hu] at hx
    cases hx
  | zero _ | finite _ _ _ _ => rfl

end Binary64

namespace Typeset

open Interpretation (evaluatedAt)

/-- A sum in parentheses and one without them. Both are `11` at `2`. -/
theorem typeset_determines_value_sum :
    let two : Expr Float := .number 2.0
    let product : Expr Float := .binary .mul (.number 3.0) (.monomial ⟨1.0, "x", 1.0⟩)
    let rest : Expr Float := .binary .mod (.number 5.0) (.number 3.0)
    let a : Expr Float := .binary .add (.number 1.0)
      (.binary .sub (.binary .mul two product) rest)
    let b : Expr Float := .binary .sub (.binary .add (.number 1.0) (.binary .mul
      (.binary .mul two (.number 3.0)) (.monomial ⟨1.0, "x", 1.0⟩))) rest
    Expr.ofText "1+(2*(3*x)-5%3)" = .ok a ∧ Expr.ofText "1+2*3*x-5%3" = .ok b ∧
      PowerFree a ∧ PowerFree b ∧ Grouped a ∧ Grouped b ∧ Clear a ∧ Clear b ∧
      a.typeset = b.typeset ∧ ∃ v w, (evaluatedAt 2).value (a.map denote) = some v ∧
        (evaluatedAt 2).value (b.map denote) = some w ∧ v = w := by
  intro two product rest a b
  have ha : Expr.ofText "1+(2*(3*x)-5%3)" = .ok a := Expr.eq_ok_of_agrees (by decide +kernel)
  have hb : Expr.ofText "1+2*3*x-5%3" = .ok b := Expr.eq_ok_of_agrees (by decide +kernel)
  have hpa : PowerFree a := by unfold PowerFree; decide +kernel
  have hpb : PowerFree b := by unfold PowerFree; decide +kernel
  have hga : Grouped a := by unfold Grouped; decide +kernel
  have hgb : Grouped b := by unfold Grouped; decide +kernel
  have hva : (evaluatedAt 2).value (a.map denote) = some 11 := by decide +kernel
  have hvb : (evaluatedAt 2).value (b.map denote) = some 11 := by decide +kernel
  have hfinite : ∀ (x : Float) (k : ℚ), (denote x).get? = some k → x.isFinite = true :=
    fun _ _ => isFinite_of_denote
  have hca : Clear a := (shows_of_ofText ha hpa hga hva).clear hfinite (by
    simp [a, two, product, rest, Expr.subtrees])
  have hcb : Clear b := (shows_of_ofText hb hpb hgb hvb).clear hfinite (by
    simp [b, two, rest, Expr.subtrees])
  have htypeset : a.typeset = b.typeset := by decide +kernel
  exact ⟨ha, hb, hpa, hpb, hga, hgb, hca, hcb, htypeset, 11, 11, hva, hvb,
    typeset_determines_value hfinite ha hb hpa hpb hga hgb hca hcb htypeset hva hvb⟩

/-- Texts that read as trees without `=` and without powers, of one typeset text and of two
values. -/
def Ambiguous (text text' : String) : Prop :=
  ∃ a b : Expr Float, Expr.ofText text = .ok a ∧ Expr.ofText text' = .ok b ∧
    (a.EqualityFree ∧ PowerFree a) ∧ (b.EqualityFree ∧ PowerFree b) ∧ a.typeset = b.typeset ∧
    ∃ v w, (evaluatedAt 0).value (a.map denote) = some v ∧
      (evaluatedAt 0).value (b.map denote) = some w ∧ v ≠ w

theorem ambiguous_of_agrees {text text' : String} (a b : Expr Float)
    (h : (Expr.ofText text).toOption.any (fun e => e.agrees a) = true ∧
      (Expr.ofText text').toOption.any (fun e => e.agrees b) = true ∧
      (∀ s ∈ a.subtrees ++ b.subtrees, s.isEquation = false ∧ isPower s = false) ∧
      a.typeset = b.typeset ∧ ((evaluatedAt 0).value (a.map denote)).isSome = true ∧
      ((evaluatedAt 0).value (b.map denote)).isSome = true ∧
      (evaluatedAt 0).value (a.map denote) ≠ (evaluatedAt 0).value (b.map denote)) :
    Ambiguous text text' := by
  obtain ⟨ha, hb, hshown, htypeset, hv, hw, hne⟩ := h
  obtain ⟨hsa, hsb⟩ := List.forall_mem_append.mp hshown
  obtain ⟨v, hv⟩ := Option.isSome_iff_exists.mp hv
  obtain ⟨w, hw⟩ := Option.isSome_iff_exists.mp hw
  refine ⟨a, b, Expr.eq_ok_of_agrees ha, Expr.eq_ok_of_agrees hb,
    ⟨fun s hs => (hsa s hs).1, fun s hs => (hsa s hs).2⟩,
    ⟨fun s hs => (hsb s hs).1, fun s hs => (hsb s hs).2⟩, htypeset, v, w, hv, hw, ?_⟩
  rintro rfl
  exact hne (hv.trans hw.symm)

/-- A sum under a minus sign, on the right of `-`, in a product or in a remainder is shown like
another grouping, and so is a remainder under a minus sign or on the right of a product, and a
product or a remainder on the right of a remainder. A number that is shown with an exponent is shown
like a difference. -/
theorem typeset_regroups :
    Ambiguous "2*(3+4)" "2*3+4" ∧
    Ambiguous "(3+4)*2" "3+4*2" ∧
    Ambiguous "1-(2+3)" "1-2+3" ∧
    Ambiguous "-(1+2)" "-1+2" ∧
    Ambiguous "-(5%3)" "-5%3" ∧
    Ambiguous "2*(5%3)" "2*5%3" ∧
    Ambiguous "(4+4)%3" "4+4%3" ∧
    Ambiguous "7%(1+2)" "7%1+2" ∧
    Ambiguous "7%(2*3)" "7%2*3" ∧
    Ambiguous "7%(5%3)" "7%5%3" ∧
    Ambiguous "0.0000000002" "2e-10" := by
  let n (x : Float) : Expr Float := .number x
  refine ⟨?_, ?_, ?_, ?_, ?_, ?_, ?_, ?_, ?_, ?_, ?_⟩
  · exact ambiguous_of_agrees (.binary .mul (n 2.0) (.binary .add (n 3.0) (n 4.0)))
      (.binary .add (.binary .mul (n 2.0) (n 3.0)) (n 4.0)) (by decide +kernel)
  · exact ambiguous_of_agrees (.binary .mul (.binary .add (n 3.0) (n 4.0)) (n 2.0))
      (.binary .add (n 3.0) (.binary .mul (n 4.0) (n 2.0))) (by decide +kernel)
  · exact ambiguous_of_agrees (.binary .sub (n 1.0) (.binary .add (n 2.0) (n 3.0)))
      (.binary .add (.binary .sub (n 1.0) (n 2.0)) (n 3.0)) (by decide +kernel)
  · exact ambiguous_of_agrees (.negate (.binary .add (n 1.0) (n 2.0)))
      (.binary .add (.negate (n 1.0)) (n 2.0)) (by decide +kernel)
  · exact ambiguous_of_agrees (.negate (.binary .mod (n 5.0) (n 3.0)))
      (.binary .mod (.negate (n 5.0)) (n 3.0)) (by decide +kernel)
  · exact ambiguous_of_agrees (.binary .mul (n 2.0) (.binary .mod (n 5.0) (n 3.0)))
      (.binary .mod (.binary .mul (n 2.0) (n 5.0)) (n 3.0)) (by decide +kernel)
  · exact ambiguous_of_agrees (.binary .mod (.binary .add (n 4.0) (n 4.0)) (n 3.0))
      (.binary .add (n 4.0) (.binary .mod (n 4.0) (n 3.0))) (by decide +kernel)
  · exact ambiguous_of_agrees (.binary .mod (n 7.0) (.binary .add (n 1.0) (n 2.0)))
      (.binary .add (.binary .mod (n 7.0) (n 1.0)) (n 2.0)) (by decide +kernel)
  · exact ambiguous_of_agrees (.binary .mod (n 7.0) (.binary .mul (n 2.0) (n 3.0)))
      (.binary .mul (.binary .mod (n 7.0) (n 2.0)) (n 3.0)) (by decide +kernel)
  · exact ambiguous_of_agrees (.binary .mod (n 7.0) (.binary .mod (n 5.0) (n 3.0)))
      (.binary .mod (.binary .mod (n 7.0) (n 5.0)) (n 3.0)) (by decide +kernel)
  · exact ambiguous_of_agrees (n 2e-10) (.binary .sub (.monomial ⟨2.0, "e", 1.0⟩) (n 10.0))
      (by decide +kernel)

end Typeset
end SymbolicAlgebra
