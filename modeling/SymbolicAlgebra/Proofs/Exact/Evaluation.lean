import SymbolicAlgebra.Proofs.Binary64.Datum
import SymbolicAlgebra.Proofs.Exact.Remainder

/-!
# Evaluations that round nothing

The evaluator gives a tree without variables its exact value, as long as it
rounds nothing and its functions are what the interpretation says. In
particular it does not fail.

Results:
* `denote_neg`: a negation of doubles rounds nothing.
* `exists_value`: a tree with an exact value evaluates to it.
-/
namespace SymbolicAlgebra

open Denotes (denote)

/-- A negation of doubles rounds nothing. -/
theorem Binary64.denote_neg (x : Float) :
    (denote (Scalar.neg x) : Exact ℚ) = Scalar.neg (denote x) := by
  have hneg : ∀ u : Float.Model.UnpackedFloat,
      rational? u.neg = (rational? u).map (- ·) := by
    intro u
    cases u with
    | finite s m e hm =>
      cases s with
      | positive =>
        rw [rational?_positive e hm]
        exact rational?_negative e hm
      | negative =>
        rw [rational?_negative e hm, Option.map_some, neg_neg]
        exact rational?_positive e hm
    | zero s => exact congrArg some neg_zero.symm
    | _ => rfl
  show Exact.mk (rational? (-x).toModel.unpack) = Exact.mk ((rational? x.toModel.unpack).map (- ·))
  rw [unpack_neg, hneg]

namespace Interpretation

variable {α K : Type} [Elementary α] [Field K] [LinearOrder K] [FloorRing K] [PartialPower K]
variable [Denotes α K]

/-- Only functions that the evaluator knows, with as many arguments as they take, have values. A
remainder has no sign. -/
structure Evaluator (I : Interpretation K) : Prop where
  known : ∀ name as v, I.function name as = some v → ∃ b, Builtin.find name as.length = .ok b
  remainder : ∀ a b, I.remainder? a b = (Exact.remainder? a b).map (|·|)

/-- Evaluating a tree rounds nothing: neither an operation nor a call, where the exact arguments
have a value. -/
structure Exactly (I : Interpretation K) (e : Expr α) : Prop extends Expr.EvaluatesExactly e where
  call : ∀ name args, .call name args ∈ e.subtrees → ∀ xs as y, Expr.values args = .ok xs →
    xs.map denote = as.map (fun a => Exact.mk (some a)) → (Expr.call name args).value = .ok y →
      denote y = ⟨I.function name as⟩

variable {I : Interpretation K} {e s : Expr α} {v : K}

/-- An operation of which the operands and the result are known. -/
theorem evaluatesExactly_of_value {op : Operator} {l r : Expr α} {x y z : α}
    (hl : l.value = .ok x) (hr : r.value = .ok y) (hop : op.value x y = .ok z)
    (h : denote z = Exact.zip (op.meaning? fun a b => (Exact.remainder? a b).map (|·|))
      (denote x) (denote y)) (hexactl : l.EvaluatesExactly) (hexactr : r.EvaluatesExactly) :
    (Expr.binary op l r).EvaluatesExactly := by
  refine Expr.evaluatesExactly_binary.mpr ⟨fun x' y' z' hx' hy' hz' => ?_, hexactl, hexactr⟩
  rw [hl] at hx'
  rw [hr] at hy'
  cases hx'
  cases hy'
  rw [hop] at hz'
  cases hz'
  exact h

/-- What rounds nothing on a tree rounds nothing on its parts. -/
theorem Exactly.of_mem (h : I.Exactly e) (hs : s ∈ e.subtrees) : I.Exactly s := by
  have hmem : ∀ a ∈ s.subtrees, a ∈ e.subtrees :=
    Expr.forall_subtrees_of_mem (fun _ ha => ha) s hs
  exact ⟨⟨fun a ha => h.negate a (hmem _ ha), fun op l r ha => h.binary op l r (hmem _ ha)⟩,
    fun name args ha => h.call name args (hmem _ ha)⟩

/-- The arguments of a call, each of which evaluates to its exact value. -/
theorem exists_values {args : List (Expr α)} {as : List K}
    (h : ∀ a ∈ args, ∀ v, I.value (a.map denote) = some v →
      ∃ x, a.value = .ok x ∧ denote x = ⟨some v⟩)
    (hvalues : I.values (Expr.mapAll denote args) = some as) :
    ∃ xs, Expr.values args = .ok xs ∧ xs.length = args.length ∧
      xs.map denote = as.map (fun a => Exact.mk (some a)) := by
  induction args generalizing as with
  | nil =>
    cases hvalues
    exact ⟨[], rfl, rfl, rfl⟩
  | cons a args ih =>
    simp only [Expr.mapAll, values, Option.bind_eq_bind, Option.bind_eq_some_iff] at hvalues
    obtain ⟨v, hv, vs, hvs, heq⟩ := hvalues
    cases heq
    rw [List.forall_mem_cons] at h
    obtain ⟨x, hx, hdx⟩ := h.1 v hv
    obtain ⟨xs, hxs, hlength, hdxs⟩ := ih h.2 hvs
    refine ⟨x :: xs, ?_, congrArg Nat.succ hlength, by rw [List.map_cons, List.map_cons, hdx, hdxs]⟩
    rw [Expr.values, hx, hxs]
    rfl

/-- A tree without variables that has an exact value evaluates to it, if that rounds nothing. -/
theorem exists_value (hI : I.Evaluator) (hm : Expr.MonomialFree e) (hexact : I.Exactly e)
    (hv : I.value (e.map denote) = some v) : ∃ x, e.value = .ok x ∧ denote x = ⟨some v⟩ := by
  induction e generalizing v with
  | number x => exact ⟨x, rfl, congrArg Exact.mk hv⟩
  | constant name x => exact ⟨x, rfl, congrArg Exact.mk hv⟩
  | negate e ih =>
    have hinner := hexact.of_mem (s := e) (by simp [Expr.subtrees, Expr.self_mem_subtrees])
    obtain ⟨a, ha, rfl⟩ := value_negate.mp hv
    obtain ⟨x, hx, hdx⟩ := ih (Expr.forall_subtrees_negate.mp hm).2 hinner ha
    refine ⟨Scalar.neg x, by rw [Expr.value, hx]; rfl, ?_⟩
    rw [hexact.negate e (Expr.self_mem_subtrees _) x hx, hdx]
    rfl
  | binary op l r ihl ihr =>
    have hexactl := hexact.of_mem (s := l) (by simp [Expr.subtrees, Expr.self_mem_subtrees])
    have hexactr := hexact.of_mem (s := r) (by simp [Expr.subtrees, Expr.self_mem_subtrees])
    obtain ⟨-, hml, hmr⟩ := Expr.forall_subtrees_binary.mp hm
    obtain ⟨a, b, ha, hb, hop⟩ := value_binary.mp hv
    obtain ⟨x, hx, hdx⟩ := ihl hml hexactl ha
    obtain ⟨y, hy, hdy⟩ := ihr hmr hexactr hb
    have hne : op ≠ .equals := by
      rintro rfl
      cases hop
    obtain ⟨z, hz⟩ := Operator.exists_value hne x y
    refine ⟨z, by rw [Expr.value, if_neg hne, hx, hy]; exact hz, ?_⟩
    have hrem : I.remainder? = fun a b => (Exact.remainder? a b).map (|·|) :=
      funext fun a => funext (hI.remainder a)
    rw [hexact.binary op l r (Expr.self_mem_subtrees _) x y z hx hy hz, hdx, hdy, ← hop, hrem]
    rfl
  | call name args ih =>
    obtain ⟨as, has, hf⟩ := value_call.mp hv
    obtain ⟨-, hmargs⟩ := Expr.forall_subtrees_call.mp hm
    have hmem : ∀ a ∈ args, a ∈ (Expr.call name args).subtrees := fun a ha =>
      (Expr.forall_subtrees_call.mp fun _ h => h).2 a ha a (Expr.self_mem_subtrees a)
    obtain ⟨xs, hxs, hlength, hdxs⟩ := exists_values
      (fun a ha _ hv => ih a ha (hmargs a ha) (hexact.of_mem (hmem a ha)) hv) has
    have hcount : xs.length = as.length := by simpa using congrArg List.length hdxs
    obtain ⟨b, hb⟩ := hI.known name as v hf
    obtain ⟨y, hy⟩ := Builtin.exists_call (hcount ▸ hb)
    have hvalue : (Expr.call name args).value = .ok y := by
      rw [Expr.value, ← hlength, hcount, hb, hxs]
      exact hy
    have hdy := hexact.call name args (Expr.self_mem_subtrees _) xs as y hxs hdxs hvalue
    exact ⟨y, hvalue, by rw [hdy, hf]⟩
  | monomial m => cases hm _ (Expr.self_mem_subtrees _)

end Interpretation
end SymbolicAlgebra
