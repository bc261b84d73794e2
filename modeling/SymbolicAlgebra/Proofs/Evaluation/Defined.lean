import SymbolicAlgebra.Evaluation
import SymbolicAlgebra.Proofs.Rewrite.Limit

/-!
# Where a tree has a value

A tree has a value if no node in it is a fault: an equation, a variable, or a
call of an unknown function or with a count of arguments that the function does
not take. What stands below a fault does not matter, and neither do numbers, so
faults are among the things that the simplifier never makes more of.

Results:
* `defined_negate`, `defined_binary`, `defined_call`: a node has a value if it
  is no fault and its operands have values.
* `defined_iff_faultless`: a tree has a value if no subtree is a fault.
* `marks_fault?`: whether a node is a fault is a mark of the census.
* `simplify_inventory`: the simplifier makes no more calls, constants, variables
  or equations than there were, and keeps a value if there was one.
-/
namespace SymbolicAlgebra

variable {α : Type}

/-- Every operator but `=` has a result on numbers. -/
theorem Operator.exists_value [Elementary α] {op : Operator} (hop : op ≠ .equals) (x y : α) :
    ∃ z, op.value x y = .ok z := by
  cases op with
  | equals => exact absurd rfl hop
  | _ => exact ⟨_, rfl⟩

/-- A function that is found has a result on as many arguments. -/
theorem Builtin.exists_call [Elementary α] {b : Builtin} {name : String} {xs : List α}
    (h : Builtin.find name xs.length = .ok b) : ∃ y, b.call name xs = .ok y := by
  have haccepts : b.accepts xs.length = true := by
    unfold Builtin.find at h
    split at h
    · cases h
    · split at h
      · next haccepts =>
        cases h
        exact haccepts
      · cases h
  obtain ⟨y, hy⟩ := Option.isSome_iff_exists.mp ((b.isSome_result? xs).trans haccepts)
  exact ⟨y, by rw [Builtin.call, hy]⟩

namespace Expr

variable {target name : String} {ceiling : Nat} {op : Operator} {e l r : Expr α}
variable {args : List (Expr α)}

/-! ## Values of the parts -/

section
variable [Elementary α]

/-- The evaluator gives the tree a number. -/
def Defined (e : Expr α) : Prop := ∃ x, e.value = .ok x

theorem defined_negate : (negate e).Defined ↔ e.Defined := by
  simp [Defined, value, except_bind_eq_ok, pure, Except.pure]

theorem defined_binary : (binary op l r).Defined ↔ op ≠ .equals ∧ l.Defined ∧ r.Defined := by
  by_cases hop : op = .equals
  · simp [Defined, value, hop]
  · simp only [Defined, value, if_neg hop, except_bind_eq_ok]
    constructor
    · intro h
      obtain ⟨z, x, hx, y, hy, -⟩ := h
      exact ⟨hop, ⟨x, hx⟩, ⟨y, hy⟩⟩
    · intro h
      obtain ⟨-, ⟨x, hx⟩, ⟨y, hy⟩⟩ := h
      obtain ⟨z, hz⟩ := Operator.exists_value hop x y
      exact ⟨z, x, hx, y, hy, hz⟩

theorem values_eq_mapM : ∀ es : List (Expr α), values es = es.mapM value
  | [] => rfl
  | e :: es => by rw [values, values_eq_mapM es, List.mapM_cons]

theorem defined_call : (call name args).Defined ↔
    (∃ b, Builtin.find name args.length = .ok b) ∧ ∀ a ∈ args, a.Defined := by
  have hargs : (∀ a ∈ args, a.Defined) ↔ ∃ xs, args.mapM value = .ok xs :=
    exists_mapM_eq_ok.symm
  rw [hargs]
  simp only [Defined, value, except_bind_eq_ok, values_eq_mapM]
  constructor
  · intro h
    obtain ⟨y, b, hb, xs, hxs, -⟩ := h
    exact ⟨⟨b, hb⟩, ⟨xs, hxs⟩⟩
  · intro h
    obtain ⟨⟨b, hb⟩, ⟨xs, hxs⟩⟩ := h
    have hfind : Builtin.find name xs.length = .ok b := by
      rw [← (except_mapM_eq_ok.mp hxs).length_eq]
      exact hb
    obtain ⟨y, hy⟩ := Builtin.exists_call hfind
    exact ⟨y, b, hb, xs, hxs, hy⟩

end

/-! ## Faults -/

/-- The error of a node that has no value whatever its operands are. -/
def fault? : Expr α → Option EvalError
  | .binary .equals _ _ => some .equality
  | .monomial m => some (.unbound m.var)
  | .call name args =>
    match Builtin.find name args.length with
    | .error err => some err
    | .ok _ => none
  | _ => none

theorem fault?_binary_eq_none : (binary op l r).fault? = none ↔ op ≠ .equals := by
  cases op <;> simp [fault?]

theorem fault?_call_eq_none :
    (call name args).fault? = none ↔ ∃ b, Builtin.find name args.length = .ok b := by
  rw [fault?]
  cases h : Builtin.find name args.length with
  | error err => simp
  | ok b => simp

theorem fault?_call_eq_some {err : EvalError} :
    (call name args).fault? = some err ↔ Builtin.find name args.length = .error err := by
  rw [fault?]
  cases h : Builtin.find name args.length with
  | error first => simp
  | ok b => simp

/-- No node of a tree is a fault. -/
def Faultless (e : Expr α) : Prop := ∀ s ∈ e.subtrees, s.fault? = none

/-- A tree has a value if no node of it is a fault. -/
theorem defined_iff_faultless [Elementary α] : e.Defined ↔ e.Faultless := by
  unfold Faultless
  induction e with
  | number x => exact iff_of_true ⟨x, rfl⟩ (forall_subtrees_number.mpr rfl)
  | constant name x => exact iff_of_true ⟨x, rfl⟩ (forall_subtrees_constant.mpr rfl)
  | monomial m =>
    refine iff_of_false ?_ ?_
    · rintro ⟨x, hx⟩
      cases hx
    · intro h
      cases forall_subtrees_monomial.mp h
  | negate e ih =>
    rw [defined_negate, forall_subtrees_negate, ih]
    exact (and_iff_right rfl).symm
  | binary op l r ihl ihr =>
    rw [defined_binary, forall_subtrees_binary, fault?_binary_eq_none, ihl, ihr]
  | call name args ih =>
    rw [defined_call, forall_subtrees_call, fault?_call_eq_none]
    exact and_congr_right fun _ => forall₂_congr ih

/-- Whether a node is a fault does not depend on its operands or its numbers. -/
theorem marks_fault? : Marks fun e : Expr α => e.fault?.isSome where
  number _ := rfl
  negate _ := rfl
  binary op _ _ h := by cases op <;> first | rfl | exact absurd rfl h
  equals _ _ _ _ := rfl
  call name as bs h := by simp only [fault?, h]
  monomial _ _ _ := rfl

theorem faultless_iff_count : e.Faultless ↔ count (fun s => s.fault?.isSome) e = 0 := by
  simp [Faultless, count, List.countP_eq_zero]

/-! ## Inventories -/

/-- What a tree is made of, numbers and operators that compute apart. -/
inductive Item (α : Type)
  | call (name : String) (arity : Nat)
  | constant (name : String) (value : α)
  | var (name : String)
  | equation
deriving DecidableEq, Repr

/-- The item that the root of a tree is. -/
def item? : Expr α → Option (Item α)
  | .call name args => some (.call name args.length)
  | .constant name x => some (.constant name x)
  | .monomial m => some (.var m.var)
  | .binary .equals _ _ => some .equation
  | _ => none

/-- The items in a tree, each as often as it occurs. -/
def inventory (e : Expr α) : List (Item α) := e.subtrees.filterMap item?

section
variable [DecidableEq α]

theorem marks_item? (item : Item α) : Marks fun e : Expr α => e.item? == some item where
  number _ := rfl
  negate _ := rfl
  binary op _ _ h := by cases op <;> first | rfl | exact absurd rfl h
  equals _ _ _ _ := rfl
  call name as bs h := by rw [item?, item?, h]
  monomial m n h := by rw [item?, item?, h]

theorem count_inventory (item : Item α) (e : Expr α) :
    e.inventory.count item = count (fun s => s.item? == some item) e := by
  rw [inventory, List.count_filterMap]
  rfl

/-- The simplifier makes no item more frequent. -/
theorem count_inventory_le [Scalar α] (h : (simplify target ceiling e).outcome = .ok r)
    (item : Item α) : r.inventory.count item ≤ e.inventory.count item := by
  rw [count_inventory, count_inventory]
  exact (marks_item? item).count_simplify_le h

end

/-- Where a tree has a value, so has what the simplifier makes of it. -/
theorem Defined.simplify [Elementary α] (he : e.Defined)
    (h : (Expr.simplify target ceiling e).outcome = .ok r) : r.Defined := by
  rw [defined_iff_faultless, faultless_iff_count] at he ⊢
  exact Nat.le_zero.mp (he ▸ marks_fault?.count_simplify_le h)

/-- Simplifying a tree of doubles makes no call, constant, variable or equation more frequent, and
what it gives can be evaluated where the tree could. -/
theorem simplify_inventory {t r : Expr Float} (h : (simplify target ceiling t).outcome = .ok r) :
    (∀ item, r.inventory.count item ≤ t.inventory.count item) ∧
      ∀ x, t.value = .ok x → ∃ y, r.value = .ok y := by
  refine ⟨count_inventory_le h, ?_⟩
  intro x hx
  have hdefined : t.Defined := ⟨x, hx⟩
  exact hdefined.simplify h

/-- `max(PI, E) + max(PI, E) + 0*avg(PI)` becomes `2*max(PI, E)`, with one `max` for two and no
`avg`. -/
theorem simplify_inventory_repeated : let pi : Expr Float := .constant "PI" 3.141592653589793
    let greater := Expr.call "max" [pi, .constant "E" 2.718281828459045]
    let t := .binary .add (.binary .add greater greater)
      (.binary .mul (literal 0) (.call "avg" [pi]))
    let r := .binary .mul (literal 2) greater
    (simplify "" 1 t).outcome = .ok r ∧
      (∀ item, r.inventory.count item ≤ t.inventory.count item) ∧ ∃ y, r.value = .ok y := by
  intro pi greater t r
  have h : (simplify "" 1 t).outcome = .ok r := rfl
  obtain ⟨hcount, hvalue⟩ := simplify_inventory h
  exact ⟨h, hcount, hvalue _ rfl⟩

end Expr
end SymbolicAlgebra
