import SymbolicAlgebra.Proofs.Reading.Completeness

/-!
# Only sums are read

A reading that comes to a tree has found, from the operand where it stands, a
phrase of each kind: the lemmas `finds_signed`, `finds_power`, `finds_product`
and `finds_sum` take them off the front of the tokens, each by the one before
it and by what the others find in shorter lists.

Results:
* `finds`: from a list that can be read to an end, a phrase of each kind is read.
* `Expr.ofTokens_iff_derives`: a list of tokens reads as a tree if and only if it
  is a sum that spells the tree, every other list is refused, and no list spells
  two trees.
-/
namespace SymbolicAlgebra

open Reading

variable {α : Type} [Scalar α] [Numeral α]
variable {F : List (Frame α)} {e l r t : Expr α} {ts us rest : List Token} {c : α} {name : String}

namespace Reading

/-- The tokens begin with a phrase of the kind `p`, and no operator of rank `k` or more follows it.
What is read behind it is `t`. -/
def Begins (p : Phrase) (k : Nat) (F : List (Frame α)) (ts : List Token) (t : Expr α) : Prop :=
  ∃ us e rest, ts = us ++ rest ∧ Derives p us e rest ∧ EndsBefore k rest ∧
    resume ⟨F, .done e⟩ rest = .ok t

/-- Whatever the reading of the tokens comes to, it begins with a phrase of each kind that may
stand behind what waits. -/
structure Finds (α : Type) [Scalar α] [Numeral α] (ts : List Token) : Prop where
  signed (F : List (Frame α)) (t : Expr α) : resume ⟨F, .operand⟩ ts = .ok t →
    ∃ us e rest, ts = us ++ rest ∧ Derives .signed us e rest ∧
      (afterPrimary F e).resume rest = .ok t
  power (F : List (Frame α)) (t : Expr α) : Unsigned F → resume ⟨F, .operand⟩ ts = .ok t →
    Begins .power 3 F ts t
  product (F : List (Frame α)) (t : Expr α) : Waits 2 F → resume ⟨F, .operand⟩ ts = .ok t →
    Begins .product 2 F ts t
  sum (F : List (Frame α)) (t : Expr α) : Waits 1 F → resume ⟨F, .operand⟩ ts = .ok t →
    Begins .sum 1 F ts t

/-! ## Operators -/

/-- A phrase `whole` grows by the operators of rank `k` that follow it, each with its operand. -/
theorem begins_of_operands {whole operand : Phrase} {k : Nat} (hpos : 0 < k) (hk : k < 3)
    (hjoin : ∀ {op ls rs rest} {l r : Expr α}, op.rank = k →
      Derives whole ls l (.operator op :: (rs ++ rest)) → Derives operand rs r rest →
      Derives whole (ls ++ .operator op :: rs) (.binary op l r) rest)
    (hF : Waits k F) (h : Derives whole us e rest) (hrest : EndsBefore (k + 1) rest)
    (hread : resume ⟨F, .done e⟩ rest = .ok t)
    (hoperand : ∀ tail, tail.length < rest.length → ∀ F', Waits (k + 1) F' →
      resume ⟨F', .operand⟩ tail = .ok t → Begins operand (k + 1) F' tail t) :
    Begins whole k F (us ++ rest) t := by
  induction hn : rest.length using Nat.strongRecOn generalizing us e rest with
  | ind n ih =>
    by_cases hop : ∃ op after, rest = .operator op :: after ∧ op.rank = k
    · obtain ⟨op, after, rfl, hrank⟩ := hop
      have hshorter : after.length < n := by simp [← hn]
      rw [resume_push (by rwa [hrank]) (Operator.ne_equals_of_rank (by omega))] at hread
      obtain ⟨rs, r, rest', rfl, hr, hrest', hread⟩ :=
        hoperand after (by simp) _ (by rw [Waits]; omega) hread
      rw [resume_apply hF.unsigned (Operator.ne_pow_of_rank (by omega)) (by rwa [hrank])] at hread
      have hlen : rest'.length < n := by
        rw [List.length_append] at hshorter
        omega
      have hgrown := ih rest'.length hlen (hjoin hrank h hr) hrest' hread
        (fun tail htail => hoperand tail (by omega)) rfl
      simpa using hgrown
    · refine ⟨us, e, rest, rfl, h, fun op after hop' => ?_, hread⟩
      exact Nat.lt_of_le_of_ne (Nat.le_of_lt_succ (hrest op after hop'))
        fun hrank => hop ⟨op, after, hop', hrank⟩

/-- The operators of rank three are powers. -/
theorem endsBefore_three (h : ∀ after, rest ≠ .operator .pow :: after) : EndsBefore 3 rest := by
  intro op after hrest
  cases op with
  | pow => exact absurd hrest (h after)
  | _ => decide

variable (hshorter : ∀ tail : List Token, tail.length < ts.length → Finds α tail)

include hshorter

/-- A signed primary is a power, or the base of one. -/
theorem finds_power (hsigned : ∀ (F : List (Frame α)) (t : Expr α),
      resume ⟨F, .operand⟩ ts = .ok t → ∃ us e rest, ts = us ++ rest ∧
        Derives .signed us e rest ∧ (afterPrimary F e).resume rest = .ok t)
    (hF : Unsigned F) (hread : resume ⟨F, .operand⟩ ts = .ok t) : Begins .power 3 F ts t := by
  obtain ⟨us, e, rest, rfl, he, hread⟩ := hsigned F t hread
  rw [afterPrimary_of_unsigned hF] at hread
  by_cases hpow : ∃ after, rest = .operator .pow :: after
  · obtain ⟨after, rfl⟩ := hpow
    rw [resume_push_pow] at hread
    obtain ⟨rs, r, rest', rfl, hr, hrest', hread⟩ :=
      (hshorter after (by simp; omega)).power (.operator e .pow :: F) t trivial hread
    rw [resume_apply_pow hF hrest'] at hread
    exact ⟨us ++ .operator .pow :: rs, _, rest', by simp, .raised he hr, hrest', hread⟩
  · exact ⟨us, e, rest, rfl, .signed he, endsBefore_three fun after h => hpow ⟨after, h⟩, hread⟩

theorem finds_product (hpower : ∀ (F : List (Frame α)) (t : Expr α), Unsigned F →
      resume ⟨F, .operand⟩ ts = .ok t → Begins .power 3 F ts t)
    (hF : Waits 2 F) (hread : resume ⟨F, .operand⟩ ts = .ok t) : Begins .product 2 F ts t := by
  obtain ⟨us, e, rest, rfl, he, hrest, hread⟩ := hpower F t hF.unsigned hread
  refine begins_of_operands (by omega) (by omega)
    (fun hop => .multiplicative (Operator.rank_eq_two_iff.mp hop)) hF (.power he) hrest hread ?_
  intro tail htail F' hF' hread
  exact (hshorter tail (by simp; omega)).power F' t hF'.unsigned hread

theorem finds_sum (hproduct : ∀ (F : List (Frame α)) (t : Expr α), Waits 2 F →
      resume ⟨F, .operand⟩ ts = .ok t → Begins .product 2 F ts t)
    (hF : Waits 1 F) (hread : resume ⟨F, .operand⟩ ts = .ok t) : Begins .sum 1 F ts t := by
  obtain ⟨us, e, rest, rfl, he, hrest, hread⟩ := hproduct F t (hF.mono (by omega)) hread
  refine begins_of_operands (by omega) (by omega)
    (fun hop => .additive (Operator.rank_eq_one_iff.mp hop)) hF (.product he) hrest hread ?_
  intro tail htail F' hF' hread
  exact (hshorter tail (by simp; omega)).product F' t hF' hread

/-! ## Primaries -/

omit hshorter in
/-- A phrase that is complete goes on with a comma, a closing parenthesis or nothing. -/
theorem resume_done (hrest : EndsBefore 1 rest) (hread : resume ⟨F, .done e⟩ rest = .ok t) :
    rest = [] ∨ (∃ after, rest = .rightParen :: after) ∨ ∃ after, rest = .comma :: after := by
  cases rest with
  | nil => exact .inl rfl
  | cons next after =>
    cases next with
    | operator op =>
      cases op with
      | equals => cases hread
      | _ => exact absurd (hrest _ _ rfl) (by decide)
    | rightParen => exact .inr (.inl ⟨after, rfl⟩)
    | comma => exact .inr (.inr ⟨after, rfl⟩)
    | _ => cases hread

omit hshorter in
/-- A variable begins a monomial, whatever stands behind it. -/
theorem finds_variable {cs : List Token} (hc : Coefficient cs c)
    (hread : resume ⟨F, .var c name⟩ ts = .ok t) :
    ∃ us e rest, cs ++ .var name :: ts = us ++ rest ∧ Derives .signed us e rest ∧
      (afterPrimary F e).resume rest = .ok t := by
  by_cases hraises : Raises ts
  · obtain ⟨us, negative, lexeme, rest, hexp, rfl⟩ := hraises
    rw [resume_variablePower hexp] at hread
    exact ⟨cs ++ .var name :: us, _, rest, by simp,
      .primary (.monomial (.variablePower hc hexp)), hread⟩
  · rw [resume_variable hraises] at hread
    exact ⟨cs ++ [.var name], _, ts, by simp, .primary (.monomial (.variable hc hraises)), hread⟩

omit hshorter in
/-- A number is an operand, or the coefficient of the variable behind it. -/
theorem finds_number {lexeme : String}
    (hread : resume ⟨F, .number (literalValue lexeme)⟩ ts = .ok t) :
    ∃ us e rest, .number lexeme :: ts = us ++ rest ∧ Derives .signed us e rest ∧
      (afterPrimary F e).resume rest = .ok t := by
  by_cases hvar : ∃ name tail, ts = .var name :: tail
  · obtain ⟨name, tail, rfl⟩ := hvar
    exact finds_variable (.number lexeme) hread
  · have halone : ∀ name tail, ts ≠ .var name :: tail := fun name tail h => hvar ⟨name, tail, h⟩
    rw [resume_number halone] at hread
    exact ⟨[.number lexeme], _, ts, rfl, .primary (.number lexeme halone), hread⟩

/-- A call of which an argument is complete takes the arguments behind it and its parenthesis. -/
theorem finds_call {init : List (Expr α)} {last : Expr α}
    (hcall : Derives .call us (.call name (init ++ [last])) rest) (hlen : rest.length < ts.length)
    (hrest : EndsBefore 1 rest)
    (hread : resume ⟨.call name init :: F, .done last⟩ rest = .ok t) :
    ∃ us' e rest', us ++ rest = us' ++ rest' ∧ Derives .signed us' e rest' ∧
      (afterPrimary F e).resume rest' = .ok t := by
  induction hn : rest.length using Nat.strongRecOn generalizing us init last rest with
  | ind n ih =>
    rcases resume_done hrest hread with rfl | ⟨after, rfl⟩ | ⟨after, rfl⟩
    · cases hread
    · rw [resume_close] at hread
      exact ⟨us ++ [.rightParen], _, after, by simp, .primary (.closedCall hcall), hread⟩
    · have hnext : resume ⟨.call name (init ++ [last]) :: F, .operand⟩ after = .ok t := hread
      rw [List.length_cons] at hlen hn
      obtain ⟨rs, e, rest', rfl, he, hrest', hread⟩ :=
        (hshorter after (by omega)).sum (.call name (init ++ [last]) :: F) t trivial hnext
      rw [List.length_append] at hlen hn
      have hgrown := ih rest'.length (by omega) (.nextArgument hcall he) (by omega) hrest' hread rfl
      simpa using hgrown

/-- An opened call takes its arguments, if there are any, and its parenthesis. -/
theorem finds_arguments (hread : resume ⟨F, .arguments name⟩ rest = .ok t)
    (hlen : rest.length < ts.length) :
    ∃ us e rest', .function name :: .leftParen :: rest = us ++ rest' ∧
      Derives .signed us e rest' ∧ (afterPrimary F e).resume rest' = .ok t := by
  by_cases hempty : ∃ tail, rest = .rightParen :: tail
  · obtain ⟨tail, rfl⟩ := hempty
    exact ⟨[.function name, .leftParen, .rightParen], _, tail, rfl,
      .primary (.emptyCall name), hread⟩
  · rw [resume_arguments fun tail h => hempty ⟨tail, h⟩] at hread
    obtain ⟨us, e, rest', rfl, he, hrest, hread⟩ :=
      (hshorter rest hlen).sum (.call name [] :: F) t trivial hread
    rw [List.length_append] at hlen
    exact finds_call hshorter (.firstArgument name he) (by omega) hrest hread

/-- Where an operand must begin, a signed primary does. -/
theorem finds_signed (hread : resume ⟨F, .operand⟩ ts = .ok t) :
    ∃ us e rest, ts = us ++ rest ∧ Derives .signed us e rest ∧
      (afterPrimary F e).resume rest = .ok t := by
  cases ts with
  | nil => cases hread
  | cons next after =>
    cases next with
    | number lexeme => exact finds_number hread
    | var name => exact finds_variable .one hread
    | constant c => exact ⟨[.constant c], _, after, rfl, .primary (.constant c), hread⟩
    | function name =>
      cases after with
      | nil => cases hread
      | cons next after =>
        cases next with
        | leftParen => exact finds_arguments hshorter hread (by simp only [List.length_cons]; omega)
        | _ => cases hread
    | negation =>
      obtain ⟨us, e, rest, rfl, he, hread⟩ :=
        (hshorter after (by simp)).signed (.minus :: F) t hread
      exact ⟨.negation :: us, _, rest, rfl, .negated he, hread⟩
    | leftParen =>
      obtain ⟨us, e, rest, rfl, he, hrest, hread⟩ :=
        (hshorter after (by simp)).sum (.paren :: F) t trivial hread
      rcases resume_done hrest hread with rfl | ⟨tail, rfl⟩ | ⟨tail, rfl⟩
      · cases hread
      · exact ⟨.leftParen :: (us ++ [.rightParen]), _, tail, by simp,
          .primary (.parenthesized he), hread⟩
      · cases hread
    | _ => cases hread

omit hshorter

/-- From a list that is read to an end, a phrase of each kind is read. -/
theorem finds (ts : List Token) : Finds α ts := by
  induction hn : ts.length using Nat.strongRecOn generalizing ts with
  | ind n ih =>
    have hshorter : ∀ tail : List Token, tail.length < ts.length → Finds α tail :=
      fun tail htail => ih tail.length (hn ▸ htail) tail rfl
    have hsigned := fun F t => finds_signed (F := F) (t := t) hshorter
    have hpower := fun F t => finds_power (F := F) (t := t) hshorter hsigned
    have hproduct := fun F t => finds_product (F := F) (t := t) hshorter hpower
    exact ⟨hsigned, hpower, hproduct, fun F t => finds_sum hshorter hproduct⟩

end Reading

/-- A list of tokens that reads as a tree is a sum that spells it. -/
theorem Expr.derives_of_ofTokens (h : Expr.ofTokens ts = .ok t) : Derives .sum ts t [] := by
  obtain ⟨us, e, rest, rfl, he, hrest, hread⟩ := (finds ts).sum [] t trivial h
  rcases resume_done hrest hread with rfl | ⟨after, rfl⟩ | ⟨after, rfl⟩
  · cases hread
    rwa [List.append_nil]
  · cases hread
  · cases hread

/-- A list of tokens reads as a tree if and only if it is a sum that spells it. Every other list is
refused, and no list spells two trees. -/
theorem Expr.ofTokens_iff_derives (ts : List Token) :
    (∀ t : Expr α, Expr.ofTokens ts = .ok t ↔ Derives .sum ts t []) ∧
      ((¬ ∃ t : Expr α, Derives .sum ts t []) →
        ∃ error, Expr.ofTokens (α := α) ts = .error error) ∧
      ∀ t u : Expr α, Derives .sum ts t [] → Derives .sum ts u [] → t = u := by
  refine ⟨fun t => ⟨derives_of_ofTokens, ofTokens_of_derives⟩, fun hnone => ?_, fun t u ht hu => ?_⟩
  · cases hresult : Expr.ofTokens (α := α) ts with
    | ok t => exact absurd ⟨t, derives_of_ofTokens hresult⟩ hnone
    | error error => exact ⟨error, rfl⟩
  · have hsame := (ofTokens_of_derives ht).symm.trans (ofTokens_of_derives hu)
    exact Except.ok.inj hsame

end SymbolicAlgebra
