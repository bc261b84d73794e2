import SymbolicAlgebra.Proofs.Reading.Grammar

/-!
# Every phrase is read

A reading holds back what the grammar has already decided: a number that might
become a coefficient, an exponent that might become a base, negations and
operators that wait for their operand. So two readings can differ and still
come to the same end. `resume` is that end, for the tokens that are left, and
each lemma here says of two readings that they agree on it.

Results:
* `resume_number`, `resume_variable`, `resume_exponent`: what is held back after
  a primary is the primary.
* `resume_push`, `resume_reduce`: an operator takes the operand before it and is applied once the
  operand behind it is complete.
* `resume_of_derives`: reading a phrase comes to the tree that it spells.
* `ofTokens_of_derives`: a list of tokens that is a sum spells its tree.
-/
namespace SymbolicAlgebra

open Reading

variable {α : Type} [Scalar α] [Numeral α]
variable {F : List (Frame α)} {e l r : Expr α} {ts us rest : List Token} {c : α} {name : String}

theorem Operator.ne_equals_of_rank {op : Operator} (h : 0 < op.rank) : op ≠ .equals := by
  rintro rfl
  exact Nat.lt_irrefl 0 h

theorem Operator.ne_pow_of_rank {op : Operator} (h : op.rank < 3) : op ≠ .pow := by
  rintro rfl
  exact Nat.lt_irrefl 3 h

namespace Reading

/-- The expression that a reading comes to with the tokens that are left. -/
def resume (r : Reading α) (ts : List Token) : Except SyntaxError (Expr α) :=
  ts.foldlM step r >>= finish

theorem resume_nil (r : Reading α) : r.resume [] = finish r := rfl

theorem resume_cons (r : Reading α) (t : Token) (ts : List Token) :
    r.resume (t :: ts) = step r t >>= fun next => next.resume ts := by
  simp only [resume, List.foldlM_cons, bind_assoc]

/-- A step that succeeds is taken. -/
theorem resume_of_step {r next : Reading α} {t : Token} (h : step r t = .ok next)
    (ts : List Token) : r.resume (t :: ts) = next.resume ts := by
  rw [resume_cons, h]
  rfl

/-! ## What waits to the left -/

/-- No negation waits first. -/
def Unsigned : List (Frame α) → Prop
  | .minus :: _ => False
  | _ => True

/-- What waits first is no negation and binds less tightly than operators of the rank `k`. -/
def Waits (k : Nat) : List (Frame α) → Prop
  | .minus :: _ => False
  | .operator _ op :: _ => op.rank < k
  | _ => True

omit [Scalar α] [Numeral α] in
theorem Waits.unsigned {k : Nat} (h : Waits k F) : Unsigned F := by
  cases F with
  | nil => trivial
  | cons f F => cases f <;> first | exact h.elim | trivial

omit [Scalar α] [Numeral α] in
theorem Waits.mono {k n : Nat} (h : Waits k F) (hle : k ≤ n) : Waits n F := by
  cases F with
  | nil => trivial
  | cons f F => cases f <;> first | exact Nat.lt_of_lt_of_le h hle | exact h

omit [Scalar α] [Numeral α] in
theorem negated_of_unsigned (h : Unsigned F) : negated F e = (F, e) := by
  cases F with
  | nil => rfl
  | cons f F => cases f <;> first | exact h.elim | rfl

omit [Scalar α] [Numeral α] in
theorem unsigned_negated (F : List (Frame α)) (e : Expr α) : Unsigned (negated F e).1 := by
  induction F generalizing e with
  | nil => trivial
  | cons f F ih =>
    cases f with
    | minus => exact ih (.negate e)
    | _ => trivial

omit [Scalar α] [Numeral α] in
theorem afterPrimary_of_unsigned (h : Unsigned F) : afterPrimary F e = ⟨F, .done e⟩ := by
  rw [afterPrimary, negated_of_unsigned h]

omit [Scalar α] [Numeral α] in
/-- Nothing is applied before an operator that binds more tightly than what waits. -/
theorem afterOperator_of_waits {op : Operator} (h : Waits op.rank F) :
    afterOperator F e op = ⟨.operator e op :: F, .operand⟩ := by
  have hclosed : closedBefore op F e = (F, e) := by
    cases F with
    | nil => rfl
    | cons f F =>
      cases f with
      | operator lhs op' =>
        have hrank : op'.rank < op.rank := h
        have hopen : op'.closesBefore op = false := by
          simp only [Operator.closesBefore, Bool.or_eq_false_iff, Bool.and_eq_false_imp,
            decide_eq_false_iff_not, beq_iff_eq]
          omega
        simp [closedBefore, hopen]
      | _ => rfl
  rw [afterOperator, hclosed]

omit [Scalar α] [Numeral α] in
/-- Nothing is ever applied before a power. -/
theorem afterOperator_pow (F : List (Frame α)) (e : Expr α) :
    afterOperator F e .pow = ⟨.operator e .pow :: F, .operand⟩ := by
  have hclosed : closedBefore .pow F e = (F, e) := by
    cases F with
    | nil => rfl
    | cons f F =>
      cases f with
      | operator lhs op => cases op <;> rfl
      | _ => rfl
  rw [afterOperator, hclosed]

/-! ## What is held back after a primary -/

/-- A reading that treats every token as one that follows the primary `e` has read `e`. -/
theorem resume_eq_afterPrimary {focus : Focus α} (hend : finish ⟨F, focus⟩ = endPrimary F e)
    (hstep : ∀ t after, rest = t :: after → step ⟨F, focus⟩ t = followPrimary F e t) :
    resume ⟨F, focus⟩ rest = (afterPrimary F e).resume rest := by
  cases rest with
  | nil =>
    have hneg := negated_of_unsigned (e := (negated F e).2) (unsigned_negated F e)
    rw [resume_nil, resume_nil, hend]
    simp only [afterPrimary, finish, endPrimary, hneg]
  | cons t after =>
    rw [resume_cons, resume_cons, hstep t after rfl]
    rfl

/-- A number that no variable follows is a primary. -/
theorem resume_number {x : α} (h : ∀ name after, rest ≠ .var name :: after) :
    resume ⟨F, .number x⟩ rest = (afterPrimary F (.number x)).resume rest := by
  refine resume_eq_afterPrimary rfl fun t after hrest => ?_
  cases t with
  | var name => exact absurd hrest (h name after)
  | _ => rfl

/-- An exponent that no `^` follows belongs to its variable. -/
theorem resume_exponent {negative : Bool} {x : α}
    (h : ∀ after, rest ≠ .operator .pow :: after) :
    resume ⟨F, .exponent c name negative x⟩ rest =
      (afterPrimary F (.monomial ⟨c, name, signed negative x⟩)).resume rest := by
  refine resume_eq_afterPrimary rfl fun t after hrest => ?_
  cases t with
  | operator op =>
    cases op with
    | pow => exact absurd hrest (h after)
    | _ => rfl
  | _ => rfl

omit [Numeral α] in
theorem afterBase_eq (F : List (Frame α)) (c : α) (name : String) :
    ∃ F' e', negated F (.monomial ⟨c, name, Scalar.natural 1⟩) = (F', e') ∧ Unsigned F' ∧
      afterBase F c name = .operator e' .pow :: F' := by
  refine ⟨_, _, rfl, unsigned_negated F _, ?_⟩
  simp only [afterBase, afterOperator_pow]

/-- A literal behind `^` that another `^` follows is the base of that one. -/
theorem resume_exponent_pow {negative : Bool} {x : α} (F : List (Frame α)) (after : List Token) :
    resume ⟨F, .exponent c name negative x⟩ (.operator .pow :: after) =
      resume ⟨(if negative then [Frame.minus] else []) ++ afterBase F c name, .number x⟩
        (.operator .pow :: after) := by
  obtain ⟨F', e', -, -, hbase⟩ := afterBase_eq F c name
  rw [resume_cons, resume_cons]
  cases negative <;>
    simp only [step, followPrimary, follow, hbase, if_true, Bool.false_eq_true, if_false,
      List.cons_append, List.nil_append, negated]

/-- Behind `^ -` that begins no exponent, an operand is read. -/
theorem resume_raisedMinus (h : ¬ Raises (.operator .pow :: .negation :: rest)) :
    resume ⟨F, .raisedMinus c name⟩ rest =
      resume ⟨.minus :: afterBase F c name, .operand⟩ rest := by
  cases rest with
  | nil => rfl
  | cons t after =>
    cases t with
    | number lexeme =>
      by_cases hpow : ∃ tail, after = .operator .pow :: tail
      · obtain ⟨tail, rfl⟩ := hpow
        exact resume_exponent_pow F tail
      · exact absurd ⟨_, _, _, _, .negative fun tail htail => hpow ⟨tail, htail⟩, rfl⟩ h
    | _ => rfl

/-- Behind `^` that begins no exponent, an operand is read. -/
theorem resume_raised (h : ¬ Raises (.operator .pow :: rest)) :
    resume ⟨F, .raised c name⟩ rest = resume ⟨afterBase F c name, .operand⟩ rest := by
  cases rest with
  | nil => rfl
  | cons t after =>
    cases t with
    | negation => exact resume_raisedMinus h
    | number lexeme =>
      by_cases hpow : ∃ tail, after = .operator .pow :: tail
      · obtain ⟨tail, rfl⟩ := hpow
        exact resume_exponent_pow F tail
      · exact absurd ⟨_, _, _, _, .positive fun tail htail => hpow ⟨tail, htail⟩, rfl⟩ h
    | _ => rfl

/-- A variable that no exponent follows is a primary. -/
theorem resume_variable (h : ¬ Raises rest) :
    resume ⟨F, .var c name⟩ rest =
      (afterPrimary F (.monomial ⟨c, name, Scalar.natural 1⟩)).resume rest := by
  by_cases hpow : ∃ after, rest = .operator .pow :: after
  · obtain ⟨after, rfl⟩ := hpow
    have hbase : (afterPrimary F (.monomial ⟨c, name, Scalar.natural 1⟩)).resume
        (.operator .pow :: after) = resume ⟨afterBase F c name, .operand⟩ after :=
      resume_of_step (by simp only [afterPrimary, step, follow, afterBase, afterOperator_pow]) after
    rw [hbase, ← resume_raised h]
    exact resume_of_step rfl after
  · refine resume_eq_afterPrimary rfl fun t after hrest => ?_
    cases t with
    | operator op =>
      cases op with
      | pow => exact absurd ⟨after, hrest⟩ hpow
      | _ => rfl
    | _ => rfl

/-- A variable with its exponent is a primary. -/
theorem resume_variablePower {negative : Bool} {lexeme : String}
    (h : Exponent us negative lexeme rest) :
    resume ⟨F, .var c name⟩ (us ++ rest) =
      (afterPrimary F (.monomial ⟨c, name, exponentValue negative lexeme⟩)).resume rest := by
  cases h with
  | positive hrest => exact resume_exponent hrest
  | negative hrest => exact resume_exponent hrest

/-! ## Operators -/

/-- An operator that binds more tightly than what waits takes the operand before it. -/
theorem resume_push {op : Operator} (hF : Waits op.rank F) (hop : op ≠ .equals)
    (ts : List Token) :
    resume ⟨F, .done l⟩ (.operator op :: ts) = resume ⟨.operator l op :: F, .operand⟩ ts := by
  refine resume_of_step ?_ ts
  rw [← afterOperator_of_waits hF]
  cases op with
  | equals => exact absurd rfl hop
  | _ => rfl

/-- A `^` always takes the operand before it. -/
theorem resume_push_pow (F : List (Frame α)) (l : Expr α) (ts : List Token) :
    resume ⟨F, .done l⟩ (.operator .pow :: ts) = resume ⟨.operator l .pow :: F, .operand⟩ ts := by
  refine resume_of_step ?_ ts
  rw [← afterOperator_pow]
  rfl

/-- An operator whose right operand is complete is applied. -/
theorem resume_reduce {op : Operator} (hF : Unsigned F)
    (h : ∀ next after, rest = .operator next :: after → op.closesBefore next = true) :
    resume ⟨.operator l op :: F, .done r⟩ rest = resume ⟨F, .done (.binary op l r)⟩ rest := by
  cases rest with
  | nil =>
    rw [resume_nil, resume_nil]
    simp only [finish, endPrimary, negated, closed, negated_of_unsigned hF]
  | cons t after =>
    rw [resume_cons, resume_cons]
    have hstep : step ⟨.operator l op :: F, .done r⟩ t = step ⟨F, .done (.binary op l r)⟩ t := by
      cases t with
      | operator next =>
        have hcloses := h next after rfl
        cases next with
        | equals => rfl
        | _ => simp only [step, follow, afterOperator, closedBefore, hcloses, if_true]
      | _ => rfl
    rw [hstep]

end Reading

/-- Any operator that follows has a rank less than `k`. -/
def EndsBefore (k : Nat) (ts : List Token) : Prop :=
  ∀ op after, ts = .operator op :: after → op.rank < k

theorem EndsBefore.mono {k n : Nat} (h : EndsBefore k ts) (hle : k ≤ n) : EndsBefore n ts :=
  fun op after hts => Nat.lt_of_lt_of_le (h op after hts) hle

theorem endsBefore_cons {k : Nat} {t : Token} (h : ∀ op, t = .operator op → op.rank < k) :
    EndsBefore k (t :: ts) := by
  intro op after hts
  cases hts
  exact h op rfl

namespace Reading

/-- An operator that groups to the left is applied before all that bind no tighter. -/
theorem resume_apply {op : Operator} (hF : Unsigned F) (hop : op ≠ .pow)
    (hrest : EndsBefore (op.rank + 1) rest) :
    resume ⟨.operator l op :: F, .done r⟩ rest = resume ⟨F, .done (.binary op l r)⟩ rest := by
  refine resume_reduce hF fun next after hnext => ?_
  have hlt := hrest next after hnext
  simp only [Operator.closesBefore, Bool.or_eq_true, decide_eq_true_eq, Bool.and_eq_true,
    beq_iff_eq, bne_iff_ne]
  rcases Nat.lt_or_eq_of_le (Nat.le_of_lt_succ hlt) with hlt | heq
  · exact .inl hlt
  · exact .inr ⟨heq, hop⟩

/-- A power is applied once no other `^` follows. -/
theorem resume_apply_pow (hF : Unsigned F) (hrest : EndsBefore 3 rest) :
    resume ⟨.operator l .pow :: F, .done r⟩ rest = resume ⟨F, .done (.binary .pow l r)⟩ rest := by
  refine resume_reduce hF fun next after hnext => ?_
  have hlt := hrest next after hnext
  simp only [Operator.closesBefore, Bool.or_eq_true, decide_eq_true_eq]
  exact .inl hlt

/-! ## Phrases -/

/-- What reading a phrase comes to, behind what may wait for it and before what may follow it. -/
def Reads : Phrase → List Token → Expr α → List Token → Prop
  | .sum, ts, e, rest => ∀ F, Waits 1 F → EndsBefore 2 rest →
      resume ⟨F, .operand⟩ (ts ++ rest) = resume ⟨F, .done e⟩ rest
  | .product, ts, e, rest => ∀ F, Waits 2 F → EndsBefore 3 rest →
      resume ⟨F, .operand⟩ (ts ++ rest) = resume ⟨F, .done e⟩ rest
  | .power, ts, e, rest => ∀ F, Unsigned F → EndsBefore 3 rest →
      resume ⟨F, .operand⟩ (ts ++ rest) = resume ⟨F, .done e⟩ rest
  | .call, ts, e, rest => ∃ name init last, e = .call name (init ++ [last]) ∧
      ∀ F, EndsBefore 2 rest →
        resume ⟨F, .operand⟩ (ts ++ rest) = resume ⟨.call name init :: F, .done last⟩ rest
  | _, ts, e, rest => ∀ F,
      resume ⟨F, .operand⟩ (ts ++ rest) = (afterPrimary F e).resume rest

theorem reads_additive {op : Operator} (hadds : op.Adds)
    (hl : Reads .sum ts l (.operator op :: (us ++ rest))) (hr : Reads .product us r rest) :
    Reads .sum (ts ++ .operator op :: us) (.binary op l r) rest := by
  intro F hF hrest
  have hop := Operator.rank_eq_one_iff.mpr hadds
  have hleft := hl F hF (endsBefore_cons fun next hnext => by cases hnext; omega)
  have hright := hr (.operator l op :: F) (by rw [Waits]; omega) (hrest.mono (by omega))
  rw [List.append_assoc, List.cons_append, hleft,
    resume_push (by rwa [hop]) (Operator.ne_equals_of_rank (by omega)), hright,
    resume_apply hF.unsigned (Operator.ne_pow_of_rank (by omega)) (by rwa [hop])]

theorem reads_multiplicative {op : Operator} (hmultiplies : op.Multiplies)
    (hl : Reads .product ts l (.operator op :: (us ++ rest))) (hr : Reads .power us r rest) :
    Reads .product (ts ++ .operator op :: us) (.binary op l r) rest := by
  intro F hF hrest
  have hop := Operator.rank_eq_two_iff.mpr hmultiplies
  have hleft := hl F hF (endsBefore_cons fun next hnext => by cases hnext; omega)
  have hright := hr (.operator l op :: F) trivial hrest
  rw [List.append_assoc, List.cons_append, hleft,
    resume_push (by rwa [hop]) (Operator.ne_equals_of_rank (by omega)), hright,
    resume_apply hF.unsigned (Operator.ne_pow_of_rank (by omega)) (by rwa [hop])]

theorem reads_raised (hl : Reads .signed ts l (.operator .pow :: (us ++ rest)))
    (hr : Reads .power us r rest) :
    Reads .power (ts ++ .operator .pow :: us) (.binary .pow l r) rest := by
  intro F hF hrest
  have hright := hr (.operator l .pow :: F) trivial hrest
  rw [List.append_assoc, List.cons_append, hl F, afterPrimary_of_unsigned hF, resume_push_pow,
    hright, resume_apply_pow hF hrest]

/-- Behind the parenthesis of a call that is not closed at once, an argument is read. -/
theorem resume_arguments (h : ∀ after, rest ≠ .rightParen :: after) :
    resume ⟨F, .arguments name⟩ rest = resume ⟨.call name [] :: F, .operand⟩ rest := by
  cases rest with
  | nil => rfl
  | cons t after =>
    cases t with
    | rightParen => exact absurd rfl (h after)
    | _ => rfl

/-- The closing parenthesis of a call that has arguments. -/
theorem resume_close (F : List (Frame α)) (name : String) (args : List (Expr α)) (e : Expr α)
    (rest : List Token) :
    resume ⟨.call name args :: F, .done e⟩ (.rightParen :: rest) =
      (afterPrimary F (.call name (args ++ [e]))).resume rest :=
  resume_of_step rfl rest

end Reading

/-- A phrase begins with a token that is no closing parenthesis. -/
theorem Derives.head {p : Phrase} (h : Derives p ts e rest) :
    ∃ t after, ts = t :: after ∧ t ≠ .rightParen := by
  induction h with
  | product _ ih | power _ ih | signed _ ih | primary _ ih | monomial _ ih => exact ih
  | additive _ _ _ ih | multiplicative _ _ _ ih | raised _ _ ih | closedCall _ ih
  | nextArgument _ _ ih =>
    obtain ⟨t, after, rfl, ht⟩ := ih
    exact ⟨t, _, rfl, ht⟩
  | «variable» hc | variablePower hc => cases hc <;> exact ⟨_, _, rfl, by simp⟩
  | _ => exact ⟨_, _, rfl, by simp⟩

namespace Reading

/-- Reading a phrase comes to the tree that it spells. -/
theorem resume_of_derives {p : Phrase} (h : Derives p ts e rest) : Reads p ts e rest := by
  induction h with
  | product _ ih => exact fun F hF hrest => ih F (hF.mono (by omega)) (hrest.mono (by omega))
  | additive hop _ _ hl hr => exact reads_additive hop hl hr
  | power _ ih => exact fun F hF hrest => ih F hF.unsigned hrest
  | multiplicative hop _ _ hl hr => exact reads_multiplicative hop hl hr
  | signed _ ih => exact fun F hF _ => by rw [ih F, afterPrimary_of_unsigned hF]
  | raised _ _ hl hr => exact reads_raised hl hr
  | primary _ ih => exact ih
  | negated _ ih => exact fun F => ih (.minus :: F)
  | number _ hrest => exact fun F => resume_number hrest
  | constant | emptyCall => exact fun F => rfl
  | monomial _ ih => exact ih
  | parenthesized _ ih =>
    intro F
    have hinner := ih (.paren :: F) trivial (endsBefore_cons (by simp))
    rw [List.cons_append, List.append_assoc]
    exact hinner
  | closedCall _ ih =>
    intro F
    obtain ⟨name, init, last, rfl, hread⟩ := ih
    rw [List.append_assoc, List.singleton_append,
      hread F (endsBefore_cons (by simp)), resume_close]
  | firstArgument name hsum ih =>
    refine ⟨name, [], _, rfl, fun F hrest => ?_⟩
    obtain ⟨t, after, rfl, ht⟩ := hsum.head
    rw [← ih (.call name [] :: F) trivial hrest, ← resume_arguments (by simpa using ht)]
    rfl
  | nextArgument _ _ ih ihNext =>
    obtain ⟨name, init, last, heq, hread⟩ := ih
    cases heq
    refine ⟨_, init ++ [last], _, rfl, fun F hrest => ?_⟩
    rw [List.append_assoc, List.cons_append, hread F (endsBefore_cons (by simp)),
      ← ihNext (.call _ (init ++ [last]) :: F) trivial hrest]
    rfl
  | «variable» hc hrest => cases hc <;> exact fun F => resume_variable hrest
  | variablePower hc hexp =>
    intro F
    rw [← resume_variablePower hexp, List.append_assoc]
    cases hc <;> rfl

end Reading

/-- A list of tokens that is a sum spells its tree. -/
theorem Expr.ofTokens_of_derives (h : Derives .sum ts e []) : Expr.ofTokens ts = .ok e := by
  have hread := resume_of_derives h [] trivial (fun _ _ hnil => nomatch hnil)
  rw [List.append_nil] at hread
  exact hread

end SymbolicAlgebra
