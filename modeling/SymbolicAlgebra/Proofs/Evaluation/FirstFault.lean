import SymbolicAlgebra.Proofs.Evaluation.Defined

/-!
# Which error an evaluation ends with

A tree may hold several faults: equations, variables, and calls that no function
answers. Operands are evaluated from left to right and each node is checked
before its operands, so the error is that of the first fault in preorder,
whatever the later ones are.

Results:
* `offends_iff`: the nodes that offend are the faults, each with its own error.
* `value_of_findSome?`: the first fault in preorder is the one that is raised.
* `value_first_offender`: a tree has a value exactly if no node offends, and its
  error is otherwise that of the first node that does.
-/
namespace SymbolicAlgebra

variable {α : Type}

theorem Builtin.accepts_eq_false {b : Builtin} {count : Nat} (h : b ≠ .average) :
    b.accepts count = false ↔ count ≠ b.arity := by
  cases b with
  | average => exact absurd rfl h
  | _ => rw [ne_comm]; simp [accepts]

theorem Builtin.find_of_ofName? {name : String} {b : Builtin} (h : ofName? name = some b)
    (count : Nat) : Builtin.find name count =
      if b.accepts count then .ok b else .error (.arity name b.arity count) := by
  rw [find, h]

namespace Expr

/-! ## Nodes that offend -/

/-- A node that has no value whatever stands below it, with the error that says why. -/
inductive Offends : Expr α → EvalError → Prop
  | equation (l r : Expr α) : Offends (.binary .equals l r) .equality
  | unbound (m : Monomial α) : Offends (.monomial m) (.unbound m.var)
  | unknown {name : String} (args : List (Expr α)) : Builtin.ofName? name = none →
      Offends (.call name args) (.unknownFunction name)
  /-- A function of a fixed count of arguments. -/
  | arity {name : String} {b : Builtin} {args : List (Expr α)} :
      Builtin.ofName? name = some b → b ≠ .average → args.length ≠ b.arity →
      Offends (.call name args) (.arity name b.arity args.length)
  /-- The mean of nothing. -/
  | average {name : String} : Builtin.ofName? name = some .average →
      Offends (.call name []) (.arity name 1 0)

variable {name : String} {args es : List (Expr α)} {e l r : Expr α} {err : EvalError}

theorem fault?_call_of_ofName? {b : Builtin} (h : Builtin.ofName? name = some b) :
    (call name args).fault? =
      if b.accepts args.length then none else some (.arity name b.arity args.length) := by
  rw [fault?, Builtin.find_of_ofName? h]
  split
  · next hfind => split at hfind <;> simp_all
  · next hfind => split at hfind <;> simp_all

theorem fault?_of_offends (h : Offends e err) : e.fault? = some err := by
  cases h with
  | equation | unbound => rfl
  | unknown args h => simp [fault?, Builtin.find, h]
  | arity h hb hcount =>
    rw [fault?_call_of_ofName? h, (Builtin.accepts_eq_false hb).mpr hcount]
    rfl
  | average h =>
    rw [fault?_call_of_ofName? h]
    rfl

theorem offends_of_fault?_call (h : (call name args).fault? = some err) :
    Offends (.call name args) err := by
  cases hname : Builtin.ofName? name with
  | none =>
    obtain rfl : .unknownFunction name = err := by simpa [fault?, Builtin.find, hname] using h
    exact .unknown args hname
  | some b =>
    rw [fault?_call_of_ofName? hname] at h
    split at h
    · cases h
    · next hcount =>
      cases h
      by_cases hb : b = .average
      · subst hb
        have hnone : ¬ 1 ≤ args.length := fun h => hcount (decide_eq_true h)
        obtain rfl : args = [] := List.eq_nil_of_length_eq_zero (by omega)
        exact .average hname
      · exact .arity hname hb ((Builtin.accepts_eq_false hb).mp (by simpa using hcount))

/-- A node offends if and only if it is a fault, with the error of that fault. -/
theorem offends_iff : Offends e err ↔ e.fault? = some err := by
  refine ⟨fault?_of_offends, fun h => ?_⟩
  cases e with
  | binary op l r =>
    cases op with
    | equals =>
      cases h
      exact .equation l r
    | _ => cases h
  | monomial m =>
    cases h
    exact .unbound m
  | call name args => exact offends_of_fault?_call h
  | _ => cases h

theorem forall_not_offends : (∀ err, ¬ Offends e err) ↔ e.fault? = none := by
  simp only [offends_iff, Option.eq_none_iff_forall_ne_some, ne_eq]

/-! ## The first of several -/

theorem faultless_iff_findSome? : e.Faultless ↔ e.subtrees.findSome? fault? = none :=
  List.findSome?_eq_none_iff.symm

variable [Elementary α]

/-- The list of arguments fails with the first argument that does. -/
theorem values_of_findSome? (hargs : ∀ a ∈ es, ∀ err, a.subtrees.findSome? fault? = some err →
    a.value = .error err) (h : (subtreesAll es).findSome? fault? = some err) :
    values es = .error err := by
  induction es with
  | nil => cases h
  | cons a es ih =>
    rw [List.forall_mem_cons] at hargs
    rw [subtreesAll, List.findSome?_append] at h
    cases ha : a.subtrees.findSome? fault? with
    | some first =>
      rw [ha] at h
      cases h
      rw [values, hargs.1 err ha]
      rfl
    | none =>
      rw [ha] at h
      obtain ⟨x, hx⟩ := defined_iff_faultless.mpr (faultless_iff_findSome?.mpr ha)
      rw [values, hx, ih hargs.2 h]
      rfl

/-- The first fault in preorder is the error. -/
theorem value_of_findSome? (h : e.subtrees.findSome? fault? = some err) :
    e.value = .error err := by
  induction e generalizing err with
  | number x | constant name x => cases h
  | monomial m =>
    cases h
    rfl
  | negate e ih =>
    rw [value, ih h]
    rfl
  | binary op l r ihl ihr =>
    by_cases hop : op = .equals
    · subst hop
      cases h
      rfl
    · rw [subtrees, List.findSome?_cons, fault?_binary_eq_none.mpr hop,
        List.findSome?_append] at h
      rw [value, if_neg hop]
      -- the right side is looked at only if the left one has a value
      cases hl : l.subtrees.findSome? fault? with
      | some first =>
        rw [hl] at h
        cases h
        rw [ihl hl]
        rfl
      | none =>
        rw [hl] at h
        obtain ⟨x, hx⟩ := defined_iff_faultless.mpr (faultless_iff_findSome?.mpr hl)
        rw [hx, ihr h]
        rfl
  | call name args ih =>
    rw [subtrees, List.findSome?_cons] at h
    rw [value]
    cases hcall : (call name args).fault? with
    | some first =>
      rw [hcall] at h
      cases h
      rw [fault?_call_eq_some.mp hcall]
      rfl
    | none =>
      rw [hcall] at h
      obtain ⟨b, hb⟩ := fault?_call_eq_none.mp hcall
      rw [hb, values_of_findSome? (fun a ha _ => ih a ha) h]
      rfl

/-- The error of a tree is its first fault in preorder. -/
theorem value_eq_error_iff : e.value = .error err ↔ e.subtrees.findSome? fault? = some err := by
  refine ⟨fun h => ?_, value_of_findSome?⟩
  cases hfirst : e.subtrees.findSome? fault? with
  | none =>
    obtain ⟨x, hx⟩ := defined_iff_faultless.mpr (faultless_iff_findSome?.mpr hfirst)
    rw [hx] at h
    cases h
  | some first =>
    rw [value_of_findSome? hfirst] at h
    cases h
    rfl

/-- A tree has a value if and only if no node of it offends. Otherwise its error is that of the
first node that offends, the nodes being taken in preorder and operands from left to right. -/
theorem value_first_offender (t : Expr α) :
    ((∃ x, t.value = .ok x) ↔ ∀ s ∈ t.subtrees, ∀ err, ¬ Offends s err) ∧
      ∀ err, t.value = .error err ↔ ∃ before s after, t.subtrees = before ++ s :: after ∧
        (∀ u ∈ before, ∀ other, ¬ Offends u other) ∧ Offends s err := by
  refine ⟨?_, fun err => ?_⟩
  · simp only [forall_not_offends]
    exact defined_iff_faultless
  · simp only [forall_not_offends]
    rw [value_eq_error_iff, List.findSome?_eq_some_iff]
    constructor
    · rintro ⟨before, s, after, hsub, hs, hbefore⟩
      exact ⟨before, s, after, hsub, hbefore, offends_iff.mpr hs⟩
    · rintro ⟨before, s, after, hsub, hbefore, hs⟩
      exact ⟨before, s, after, hsub, offends_iff.mp hs, hbefore⟩

/-- In `max(1, -avg()) + f(x = 2)` the mean of nothing comes first. -/
example : let x : Expr Float := .monomial ⟨1.0, "x", 1.0⟩
    let greater := call "max" [.number 1.0, .negate (.call "avg" [])]
    (binary .add greater (.call "f" [.binary .equals x (.number 2.0)])).value =
      .error (.arity "avg" 1 0) := rfl

end Expr
end SymbolicAlgebra
