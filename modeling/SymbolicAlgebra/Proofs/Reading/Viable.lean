import SymbolicAlgebra.Binary64.Instances
import SymbolicAlgebra.Proofs.Reading.Completeness
import SymbolicAlgebra.Proofs.Rewrite.Steps
import SymbolicAlgebra.Proofs.Token.Kind

/-!
# The first token that cannot stand where it does

Whatever a reading still waits for can be given to it: an operand where one must
begin, and then a parenthesis for each that is open. So a list of tokens that is
read without an error begins some list that spells a tree. One that is refused
begins none, whatever follows the token that was refused, and thus the error of
a list comes at the first token that rules it out.

The one thing that could stand in the way is a negation beneath an operator, for
nothing would ever apply it. `Stacked` says that there is none.

Results:
* `Coherent.step`: no step leaves a negation beneath an operator.
* `Coherent.exists_end`: what is read without an error can be completed.
* `error_of_step`, `error_of_finish`: the errors of a token and of the end.
* `viable_iff`: a list begins one that spells a tree if and only if it is read
  without an error.
* `Expr.ofTokens_error_first`: where the error of a list comes, and which it is.
-/
namespace SymbolicAlgebra

open Reading

variable {α : Type}

namespace Reading

variable {F : List (Frame α)} {e : Expr α} {r s : Reading α} {t : Token} {ts : List Token}
variable {err : SyntaxError}

/-! ## What waits beneath an operator -/

/-- No operator stands above a negation. The negation has been applied to what became the left
operand. -/
def Stacked : List (Frame α) → Prop
  | [] => True
  | .operator _ _ :: F => Unsigned F ∧ Stacked F
  | _ :: F => Stacked F

/-- No negation waits beneath an operator or behind a complete operand. -/
structure Coherent (r : Reading α) : Prop where
  stacked : Stacked r.frames
  unsigned : ∀ e, r.focus = .done e → Unsigned r.frames

theorem Stacked.tail {f : Frame α} (h : Stacked (f :: F)) : Stacked F := by
  cases f with
  | operator lhs op => exact h.2
  | _ => exact h

theorem Stacked.negated (h : Stacked F) (e : Expr α) : Stacked (negated F e).1 := by
  induction F generalizing e with
  | nil => exact h
  | cons f F ih =>
    cases f with
    | minus => exact ih h (.negate e)
    | _ => exact h

theorem Stacked.closed (h : Stacked F) (e : Expr α) : Stacked (closed F e).1 := by
  induction F generalizing e with
  | nil => exact h
  | cons f F ih =>
    cases f with
    | operator lhs op => exact ih h.2 (.binary op lhs e)
    | _ => exact h

/-- Applying operators uncovers no negation. -/
theorem Stacked.closedBefore (h : Stacked F) (hu : Unsigned F) (next : Operator) (e : Expr α) :
    Stacked (closedBefore next F e).1 ∧ Unsigned (closedBefore next F e).1 := by
  induction F generalizing e with
  | nil => exact ⟨h, hu⟩
  | cons f F ih =>
    cases f with
    | operator lhs op =>
      unfold Reading.closedBefore
      split
      · exact ih h.2 h.1 (.binary op lhs e)
      · exact ⟨h, hu⟩
    | _ => exact ⟨h, hu⟩

/-! ## Coherence is kept -/

theorem coherent_start : Coherent (start : Reading α) := ⟨trivial, nofun⟩

/-- Behind anything but a complete operand, only operators matter. -/
theorem Stacked.coherent {focus : Focus α} (h : Stacked F) (hfocus : ∀ e, focus ≠ .done e) :
    Coherent ⟨F, focus⟩ := ⟨h, fun e he => absurd he (hfocus e)⟩

theorem Stacked.afterPrimary (h : Stacked F) (e : Expr α) : Coherent (afterPrimary F e) :=
  ⟨h.negated e, fun _ _ => unsigned_negated F e⟩

theorem Stacked.afterOperator (h : Stacked F) (hu : Unsigned F) (e : Expr α) (op : Operator) :
    Coherent (afterOperator F e op) := by
  obtain ⟨hstacked, hunsigned⟩ := h.closedBefore hu op e
  have hframes : Stacked (Reading.afterOperator F e op).frames := ⟨hunsigned, hstacked⟩
  exact hframes.coherent nofun

theorem Stacked.follow (h : Stacked F) (hu : Unsigned F) (hstep : follow F e t = .ok s) :
    Coherent s := by
  have hclosed := h.closed e
  unfold Reading.follow at hstep
  split at hstep
  · cases hstep
  · cases hstep
    exact h.afterOperator hu e _
  · split at hstep <;> cases hstep
    all_goals
      next hframes =>
      rw [hframes] at hclosed
      exact hclosed.tail.afterPrimary _
  · split at hstep <;> cases hstep
    next hframes =>
    rw [hframes] at hclosed
    exact Stacked.coherent (F := .call _ _ :: _) hclosed.tail fun _ h => nomatch h
  · cases hstep

theorem Stacked.followPrimary (h : Stacked F) (hstep : followPrimary F e t = .ok s) :
    Coherent s :=
  (h.negated e).follow (unsigned_negated F e) hstep

variable [Scalar α] [Numeral α]

theorem Stacked.operandStep (h : Stacked F) (hstep : operandStep F t = .ok s) : Coherent s := by
  cases t <;> cases hstep
  case constant c => exact h.afterPrimary _
  all_goals exact Stacked.coherent h fun _ h => nomatch h

omit [Numeral α] in
theorem Stacked.afterBase (h : Stacked F) (c : α) (name : String) :
    Stacked (afterBase F c name) :=
  ((h.negated _).afterOperator (unsigned_negated F _) _ .pow).stacked

/-- What becomes of a token, as far as frames and errors go. -/
inductive Treats (r : Reading α) (t : Token) : Except SyntaxError (Reading α) → Prop
  /-- Nothing is complete yet. -/
  | held {focus : Focus α} : (∀ e, focus ≠ .done e) → (∀ name, focus ≠ .callee name) →
      Treats r t (.ok ⟨r.frames, focus⟩)
  /-- An operand must begin. -/
  | operand {F : List (Frame α)} {outcome} : (Stacked r.frames → Stacked F) →
      operandStep F t = outcome → Treats r t outcome
  /-- What was held back is a primary. -/
  | primary {e : Expr α} {outcome} : followPrimary r.frames e t = outcome → Treats r t outcome
  | emptyCall (name : String) : Treats r t (.ok (afterPrimary r.frames (.call name [])))
  /-- What was held back as an exponent is the base of a power. -/
  | base (c : α) (name : String) (e : Expr α) :
      Treats r t (.ok (afterOperator (afterBase r.frames c name) e .pow))
  | follow {e : Expr α} {outcome} : r.focus = .done e → follow r.frames e t = outcome →
      Treats r t outcome
  | uncalled {name : String} : r.focus = .callee name → t ≠ .leftParen →
      Treats r t (.error .missingFunctionName)

/-- A step treats its token in one of these ways. -/
theorem treats_step (r : Reading α) (t : Token) : Treats r t (step r t) := by
  obtain ⟨F, focus⟩ := r
  cases focus with
  | operand => exact .operand id rfl
  | callee name =>
    cases t with
    | leftParen => exact .held nofun nofun
    | _ => exact .uncalled rfl nofun
  | arguments name =>
    cases t with
    | rightParen => exact .emptyCall name
    | _ => exact .operand (F := .call name [] :: F) id rfl
  | number x =>
    cases t with
    | var name => exact .held nofun nofun
    | _ => exact .primary (e := .number x) rfl
  | var c name =>
    cases t with
    | operator op =>
      cases op with
      | pow => exact .held nofun nofun
      | _ => exact .primary (e := .monomial ⟨c, name, Scalar.natural 1⟩) rfl
    | _ => exact .primary (e := .monomial ⟨c, name, Scalar.natural 1⟩) rfl
  | raised c name =>
    cases t with
    | negation | number lexeme => exact .held nofun nofun
    | _ => exact .operand (fun h => h.afterBase c name) rfl
  | raisedMinus c name =>
    cases t with
    | number lexeme => exact .held nofun nofun
    | _ => exact .operand (F := .minus :: afterBase F c name) (fun h => h.afterBase c name) rfl
  | exponent c name negative x =>
    cases t with
    | operator op =>
      cases op with
      | pow => exact .base c name _
      | _ => exact .primary (e := .monomial ⟨c, name, signed negative x⟩) rfl
    | _ => exact .primary (e := .monomial ⟨c, name, signed negative x⟩) rfl
  | done e => exact .follow rfl rfl

/-- A step keeps a reading coherent. -/
theorem Coherent.step (h : Coherent r) (hstep : step r t = .ok s) : Coherent s := by
  have hF := h.stacked
  have htreats := treats_step r t
  rw [hstep] at htreats
  cases htreats with
  | held hfocus _ => exact hF.coherent hfocus
  | operand hframes hs => exact (hframes hF).operandStep hs
  | primary hs => exact hF.followPrimary hs
  | emptyCall name => exact hF.afterPrimary _
  | base c name e => exact (hF.afterBase c name).afterOperator trivial e .pow
  | follow hdone hs => exact hF.follow (h.unsigned _ hdone) hs

theorem Coherent.run (h : Coherent r) (hrun : ts.foldlM Reading.step r = .ok s) : Coherent s := by
  induction ts generalizing r with
  | nil =>
    cases hrun
    exact h
  | cons t ts ih =>
    rw [List.foldlM_cons, except_bind_eq_ok] at hrun
    obtain ⟨next, hstep, hrun⟩ := hrun
    exact ih (h.step hstep) hrun

/-! ## What completes a reading -/

omit [Scalar α] [Numeral α] in
/-- A parenthesis for each that is open. -/
def closers : List (Frame α) → List Token
  | [] => []
  | .paren :: F | .call _ _ :: F => .rightParen :: closers F
  | .minus :: F | .operator _ _ :: F => closers F

omit [Scalar α] [Numeral α] in
theorem mem_closers {F : List (Frame α)} (h : t ∈ closers F) : t = .rightParen := by
  induction F with
  | nil => cases h
  | cons f F ih =>
    cases f with
    | minus | operator => exact ih h
    | paren | call =>
      rcases List.mem_cons.mp h with rfl | h
      · rfl
      · exact ih h

omit [Scalar α] [Numeral α] in
/-- Closing parentheses begin with no other token. -/
theorem closers_ne_cons (F : List (Frame α)) (t : Token) (ht : t ≠ .rightParen)
    (after : List Token) :
    closers F ≠ t :: after := by
  intro h
  exact ht (mem_closers (F := F) (h ▸ List.mem_cons_self))

/-- Behind a primary, a parenthesis for each that is open completes the reading. -/
theorem exists_resume_closers (h : Stacked F) (e : Expr α) :
    ∃ t, (afterPrimary F e).resume (closers F) = .ok t := by
  induction F generalizing e with
  | nil => exact ⟨e, rfl⟩
  | cons f F ih =>
    cases f with
    | minus => exact ih h (.negate e)
    | operator lhs op =>
      obtain ⟨t, ht⟩ := ih h.2 (.binary op lhs e)
      rw [afterPrimary_of_unsigned h.1] at ht
      have hclosers : ∀ next after, closers F ≠ .operator next :: after :=
        fun next => closers_ne_cons F (.operator next) nofun
      refine ⟨t, ?_⟩
      rw [afterPrimary_of_unsigned (F := .operator lhs op :: F) trivial, closers,
        resume_reduce h.1 fun next after hnext => (hclosers next after hnext).elim]
      exact ht
    | paren =>
      obtain ⟨t, ht⟩ := ih h e
      exact ⟨t, ht⟩
    | call name args =>
      obtain ⟨t, ht⟩ := ih h (.call name (args ++ [e]))
      exact ⟨t, ht⟩

/-- What is behind a coherent reading can be chosen so that it comes to a tree. -/
theorem Coherent.exists_end (h : Coherent r) : ∃ ts t, r.resume ts = .ok t := by
  obtain ⟨F, focus⟩ := r
  have hF : Stacked F := h.stacked
  have hpow : ∀ after, closers F ≠ .operator .pow :: after := closers_ne_cons F _ nofun
  have hvar : ∀ name after, closers F ≠ .var name :: after := fun _ => closers_ne_cons F _ nofun
  have hraises : ¬ Raises (closers F) := by
    rintro ⟨us, negative, lexeme, rest, hexp, heq⟩
    cases hexp <;> exact hpow _ heq
  have hclosers := exists_resume_closers hF
  -- what has been read in full needs only the parentheses
  cases focus with
  | operand =>
    obtain ⟨t, ht⟩ := hclosers (.number (literalValue "1"))
    refine ⟨.number "1" :: closers F, t, ?_⟩
    rw [← ht, ← resume_number hvar]
    rfl
  | callee name =>
    obtain ⟨t, ht⟩ := hclosers (.call name [])
    exact ⟨.leftParen :: .rightParen :: closers F, t, ht⟩
  | arguments name =>
    obtain ⟨t, ht⟩ := hclosers (.call name [])
    exact ⟨.rightParen :: closers F, t, ht⟩
  | number x =>
    obtain ⟨t, ht⟩ := hclosers (.number x)
    refine ⟨closers F, t, ?_⟩
    rwa [resume_number hvar]
  | var c name =>
    obtain ⟨t, ht⟩ := hclosers (.monomial ⟨c, name, Scalar.natural 1⟩)
    refine ⟨closers F, t, ?_⟩
    rwa [resume_variable hraises]
  | raised c name =>
    obtain ⟨t, ht⟩ := hclosers (.monomial ⟨c, name, signed false (literalValue "1")⟩)
    refine ⟨.number "1" :: closers F, t, ?_⟩
    rw [← ht, ← resume_exponent hpow]
    rfl
  | raisedMinus c name =>
    obtain ⟨t, ht⟩ := hclosers (.monomial ⟨c, name, signed true (literalValue "1")⟩)
    refine ⟨.number "1" :: closers F, t, ?_⟩
    rw [← ht, ← resume_exponent hpow]
    rfl
  | exponent c name negative x =>
    obtain ⟨t, ht⟩ := hclosers (.monomial ⟨c, name, signed negative x⟩)
    refine ⟨closers F, t, ?_⟩
    rwa [resume_exponent hpow]
  | done e =>
    obtain ⟨t, ht⟩ := hclosers e
    refine ⟨closers F, t, ?_⟩
    rwa [afterPrimary_of_unsigned (h.unsigned e rfl)] at ht

/-! ## Errors -/

omit [Scalar α] [Numeral α] in
theorem error_of_follow (h : follow F e t = .error err) :
    err = t.misplaced ∨ err = .missingFunctionName ∧ t = .comma := by
  unfold follow at h
  split at h
  · cases h
    exact .inl rfl
  · cases h
  · split at h <;> cases h
    exact .inl rfl
  · split at h <;> cases h
    · exact .inr ⟨rfl, rfl⟩
    · exact .inl rfl
  · cases h
    exact .inl rfl

theorem error_of_operandStep (h : operandStep F t = .error err) : err = t.misplaced := by
  cases t <;> cases h <;> rfl

/-- A token is refused because it cannot stand where it does, or it is a comma in a parenthesis that
is no call, or it stands between a function name and its parenthesis. -/
theorem error_of_step (h : step r t = .error err) :
    err = t.misplaced ∨ err = .missingFunctionName ∧ t = .comma ∨
      (∃ name, r.focus = .callee name) ∧ t ≠ .leftParen := by
  have htreats := treats_step r t
  rw [h] at htreats
  cases htreats with
  | operand _ hs => exact .inl (error_of_operandStep hs)
  | primary hs | follow _ hs => exact (error_of_follow hs).imp_right .inl
  | uncalled hcallee ht => exact .inr (.inr ⟨⟨_, hcallee⟩, ht⟩)

omit [Scalar α] [Numeral α] in
theorem error_of_endPrimary (h : endPrimary F e = .error err) : err = .unexpectedEnd := by
  unfold endPrimary at h
  split at h
  split at h <;> cases h
  rfl

omit [Numeral α] in
/-- The end is refused because something must follow, or behind a function name. -/
theorem error_of_finish (h : finish r = .error err) :
    err = .unexpectedEnd ∨ ∃ name, r.focus = .callee name := by
  obtain ⟨F, focus⟩ := r
  cases focus with
  | callee name => exact .inr ⟨name, rfl⟩
  | number | var | exponent | done => exact .inl (error_of_endPrimary h)
  | _ =>
    cases h
    exact .inl rfl

omit [Scalar α] [Numeral α] in
theorem focus_of_follow (h : follow F e t = .ok s) :
    s.focus = .operand ∨ ∃ e, s.focus = .done e := by
  unfold follow at h
  split at h
  · cases h
  · cases h
    exact .inl rfl
  · split at h <;> cases h
    all_goals exact .inr ⟨_, rfl⟩
  · split at h <;> cases h
    exact .inl rfl
  · cases h

/-- The parenthesis of a call is waited for only behind a function name. -/
theorem function_of_callee {name : String} (h : step r t = .ok s) (hs : s.focus = .callee name) :
    t = .function name := by
  have htreats := treats_step r t
  rw [h] at htreats
  cases htreats with
  | held _ hfocus => exact absurd hs (hfocus name)
  | operand _ hok =>
    cases t <;> cases hok <;> cases hs
    rfl
  | primary hok | follow _ hok =>
    rcases focus_of_follow hok with hfocus | ⟨e, hfocus⟩
    all_goals
      rw [hs] at hfocus
      cases hfocus
  | emptyCall | base => cases hs

/-- The tokens before an error are read, and the error is that of the next one. -/
theorem exists_first_error (h : ts.foldlM Reading.step r = .error err) :
    ∃ before t after s, ts = before ++ t :: after ∧ before.foldlM Reading.step r = .ok s ∧
      Reading.step s t = .error err := by
  induction ts generalizing r with
  | nil => cases h
  | cons t ts ih =>
    rw [List.foldlM_cons, except_bind_eq_error] at h
    rcases h with h | ⟨next, hstep, h⟩
    · exact ⟨[], t, ts, r, rfl, rfl, h⟩
    · obtain ⟨before, u, after, s, rfl, hrun, herror⟩ := ih h
      refine ⟨t :: before, u, after, s, rfl, ?_, herror⟩
      rw [List.foldlM_cons, hstep]
      exact hrun

end Reading

/-! ## Beginnings of what spells a tree -/

/-- Tokens with which some list begins that spells a tree. -/
def Viable (α : Type) [Scalar α] [Numeral α] (ts : List Token) : Prop :=
  ∃ rest, ∃ e : Expr α, Expr.ofTokens (ts ++ rest) = .ok e

/-- A parenthesis stands behind each function name. -/
def CallsOpen : List Token → Prop
  | [] => True
  | t :: ts => ((∃ name, t = .function name) → ts.head? = some .leftParen) ∧ CallsOpen ts

variable {ts before after : List Token} {t : Token} {err : SyntaxError} {name : String}

theorem CallsOpen.head? (h : CallsOpen (before ++ .function name :: after)) :
    after.head? = some .leftParen := by
  induction before with
  | nil => exact h.1 ⟨name, rfl⟩
  | cons t before ih => exact ih h.2

variable [Scalar α] [Numeral α]

/-- Tokens begin a list that spells a tree if and only if they are read without an error. -/
theorem viable_iff : Viable α ts ↔ ∃ r : Reading α, ts.foldlM Reading.step start = .ok r := by
  constructor
  · intro h
    obtain ⟨rest, e, h⟩ := h
    unfold Expr.ofTokens at h
    rw [List.foldlM_append, bind_assoc, except_bind_eq_ok] at h
    obtain ⟨r, hrun, -⟩ := h
    exact ⟨r, hrun⟩
  · intro h
    obtain ⟨r, hrun⟩ := h
    obtain ⟨rest, e, hend⟩ := (coherent_start.run hrun).exists_end
    refine ⟨rest, e, ?_⟩
    unfold Expr.ofTokens
    rw [List.foldlM_append, hrun]
    exact hend

/-- Where the parenthesis of a call is waited for, a function name stands last. -/
theorem exists_function_of_callee {r : Reading α} (h : ts.foldlM Reading.step start = .ok r)
    (hr : r.focus = .callee name) : ∃ init, ts = init ++ [.function name] := by
  rcases List.eq_nil_or_concat ts with rfl | ⟨init, t, rfl⟩
  · cases h
    cases hr
  · rw [List.concat_eq_append, List.foldlM_append, except_bind_eq_ok] at h
    obtain ⟨s, -, hlast⟩ := h
    rw [List.foldlM_cons, except_bind_eq_ok] at hlast
    obtain ⟨last, hstep, hlast⟩ := hlast
    cases hlast
    exact ⟨init, by rw [function_of_callee hstep hr, List.concat_eq_append]⟩

/-- A token that is refused cannot be made good by what follows it. -/
theorem not_viable_of_error {r : Reading α} (hrun : before.foldlM Reading.step start = .ok r)
    (h : Reading.step r t = .error err) : ¬ Viable α (before ++ [t]) := by
  rw [viable_iff]
  intro hviable
  obtain ⟨s, hs⟩ := hviable
  rw [List.foldlM_append, except_bind_eq_ok] at hs
  obtain ⟨r', hrun', hs⟩ := hs
  rw [hrun] at hrun'
  cases hrun'
  rw [List.foldlM_cons, except_bind_eq_ok] at hs
  obtain ⟨last, hstep, -⟩ := hs
  rw [h] at hstep
  cases hstep

/-- What the error of a token says of it. -/
def Blames (err : SyntaxError) (t : Token) : Prop :=
  err = .missingFunctionName ∧ t = .comma ∨
    err = .invalidOperator t.lexeme ∧ t.BeginsOperand ∨
    err = .invalidToken t.lexeme ∧ ¬ t.BeginsOperand ∧ t.lexeme ≠ SyntaxError.endOfInput

omit [Scalar α] [Numeral α] in
theorem blames_misplaced (t : Token) : Blames t.misplaced t := by
  unfold Token.misplaced
  split
  · next hstarts => exact .inr (.inl ⟨rfl, Token.startsOperand_iff.mp hstarts⟩)
  · next hstarts =>
    refine .inr (.inr ⟨rfl, mt Token.startsOperand_iff.mpr hstarts, ?_⟩)
    cases t with
    | operator op => cases op <;> decide
    | negation | rightParen | comma => decide
    | _ => exact absurd rfl hstarts

theorem Blames.ne_unexpectedEnd (h : Blames err t) : err ≠ .unexpectedEnd := by
  rcases h with ⟨rfl, -⟩ | ⟨rfl, -⟩ | ⟨rfl, -⟩ <;> nofun

/-- A list of tokens is refused at its end if it begins some list that spells a tree. Any other is
refused at the first token with which it begins none any more, and the error carries that token: an
operator was needed if the token begins an operand, and it is invalid if it does not. Only of a
comma it may be said instead that a function has no name. -/
theorem Expr.ofTokens_error_first (hcalls : CallsOpen ts)
    (h : Expr.ofTokens (α := α) ts = .error err) :
    (err = .unexpectedEnd ∧ Viable α ts) ∨
      (err ≠ .unexpectedEnd ∧ ∃ before t after, ts = before ++ t :: after ∧
        Viable α before ∧ ¬ Viable α (before ++ [t]) ∧ Blames err t) := by
  unfold Expr.ofTokens at h
  rcases except_bind_eq_error.mp h with h | ⟨r, hrun, hend⟩
  · right
    obtain ⟨before, t, after, r, rfl, hrun, herror⟩ := exists_first_error h
    have hblames : Blames err t := by
      rcases error_of_step herror with rfl | hcomma | ⟨⟨name, hcallee⟩, hopen⟩
      · exact blames_misplaced t
      · exact .inl hcomma
      · obtain ⟨init, rfl⟩ := exists_function_of_callee hrun hcallee
        rw [List.append_assoc] at hcalls
        exact absurd (Option.some.inj hcalls.head?) hopen
    exact ⟨hblames.ne_unexpectedEnd, before, t, after, rfl, viable_iff.mpr ⟨r, hrun⟩,
      not_viable_of_error hrun herror, hblames⟩
  · left
    rcases error_of_finish hend with rfl | ⟨name, hcallee⟩
    · exact ⟨rfl, viable_iff.mpr ⟨r, hrun⟩⟩
    · obtain ⟨init, rfl⟩ := exists_function_of_callee hrun hcallee
      cases hcalls.head?

/-- In `-max(x^-2, (3, y))` the second comma is what rules the text out. -/
theorem Expr.ofTokens_error_first_comma :
    let ts : List Token := [.negation, .function "max", .leftParen, .var "x", .operator .pow,
      .negation, .number "2", .comma, .leftParen, .number "3", .comma, .var "y", .rightParen,
      .rightParen]
    CallsOpen ts ∧ Expr.ofTokens (α := Float) ts = .error .missingFunctionName ∧
      ∃ before t after, ts = before ++ t :: after ∧ Viable Float before ∧
        ¬ Viable Float (before ++ [t]) ∧ t = .comma := by
  intro ts
  have hcalls : CallsOpen ts := by simp [ts, CallsOpen]
  have herror : Expr.ofTokens (α := Float) ts = .error .missingFunctionName := rfl
  refine ⟨hcalls, herror, ?_⟩
  rcases ofTokens_error_first hcalls herror with ⟨hend, -⟩ | ⟨-, hfirst⟩
  · cases hend
  · obtain ⟨before, t, after, hts, hb, ht, hblames⟩ := hfirst
    refine ⟨before, t, after, hts, hb, ht, ?_⟩
    rcases hblames with ⟨-, hcomma⟩ | ⟨hother, -⟩ | ⟨hother, -⟩
    · exact hcomma
    · cases hother
    · cases hother

end SymbolicAlgebra
