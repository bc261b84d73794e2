import SymbolicAlgebra.Expr.OfText
import SymbolicAlgebra.Proofs.Reading.Viable
import SymbolicAlgebra.Proofs.Token.Lossless

/-!
# Calls in the tokens of a text

A word is a function name only where a parenthesis opens behind it, and nothing
comes between the two: no product is put there, and no equals sign parts them.
So when the parenthesis of a call is waited for it is the next token, and the
error that a function has no name is left to commas in other parentheses.

Results:
* `Token.Opened.answered`: where the parenthesis of a call is waited for, it comes.
* `Token.Opened.commaRefused`: what the error of a missing function name is about.
* `ofText_lossless`: the tokens of a text, and what reading them can meet.
-/
namespace SymbolicAlgebra

open Reading Token

/-- The lists of tokens that are read as expressions when a text is read: all of its tokens, or
those on either side of the equals sign. -/
def Token.parts (ts : List Token) : List (List Token) :=
  [ts, ts.takeWhile (· != equalsSign), (ts.dropWhile (· != equalsSign)).drop 1]

/-- Where the parenthesis of a call is waited for, it is the next token. -/
def Token.Answered (α : Type) [Scalar α] [Numeral α] (ps : List Token) : Prop :=
  ∀ before after (r : Reading α) name, ps = before ++ after →
    before.foldlM Reading.step start = .ok r → r.focus = .callee name →
      after.head? = some .leftParen

/-- A comma is refused because the parenthesis around it is not that of a call. -/
def Token.CommaRefused (α : Type) [Scalar α] [Numeral α] (ps : List Token) : Prop :=
  ∃ before after, ∃ r : Reading α, ps = before ++ .comma :: after ∧
    before.foldlM Reading.step start = .ok r ∧ (∀ name, r.focus ≠ .callee name) ∧
      Reading.step r .comma = .error .missingFunctionName

variable {α : Type} [Scalar α] [Numeral α] {ts ps before : List Token} {text : String}

/-! ## The sides of an equals sign -/

omit [Scalar α] [Numeral α] in
/-- What stops at no parenthesis leaves each function name its own. -/
theorem Token.Opened.takeWhile {p : Token → Bool} (h : Opened ts) (hp : p .leftParen = true) :
    Opened (ts.takeWhile p) := by
  intro before name after hts
  have happend : ts = before ++ .function name :: (after ++ ts.dropWhile p) := by
    rw [← List.cons_append, ← List.append_assoc, ← hts, List.takeWhile_append_dropWhile]
  have hhead := h _ _ _ happend
  cases after with
  | cons t after => exact hhead
  | nil =>
    rw [List.nil_append] at hhead
    have hstop := List.head?_dropWhile_not p ts
    rw [hhead] at hstop
    exact absurd (hp.symm.trans (by simpa using hstop)) Bool.noConfusion

theorem Token.Opened.of_mem_parts (h : Opened ts) (hps : ps ∈ parts ts) : Opened ps := by
  simp only [parts, List.mem_cons, List.not_mem_nil, or_false] at hps
  rcases hps with rfl | rfl | rfl
  · exact h
  · exact h.takeWhile rfl
  · have hdrop : Opened (ts.dropWhile (· != equalsSign)) := by
      refine Opened.of_append (ts.takeWhile (· != equalsSign)) ?_
      rwa [List.takeWhile_append_dropWhile]
    refine Opened.of_append ((ts.dropWhile (· != equalsSign)).take 1) ?_
    rwa [List.take_append_drop]

/-! ## Errors of a missing function name -/

theorem Token.Opened.answered (h : Opened ps) : Answered α ps := by
  intro before after r name hps hrun hr
  obtain ⟨init, rfl⟩ := exists_function_of_callee hrun hr
  exact h init name after (by rw [hps, List.append_assoc]; rfl)

theorem Token.Opened.commaRefused (h : Opened ps)
    (herror : Expr.ofTokens (α := α) ps = .error .missingFunctionName) : CommaRefused α ps := by
  unfold Expr.ofTokens at herror
  rcases except_bind_eq_error.mp herror with hrun | ⟨r, hrun, hend⟩
  · obtain ⟨before, t, after, r, hps, hrun, hstep⟩ := exists_first_error hrun
    have hnext : ∀ name, r.focus = .callee name → t = .leftParen := fun name hr =>
      Option.some.inj (h.answered before (t :: after) r name hps hrun hr)
    rcases error_of_step hstep with hmisplaced | ⟨-, rfl⟩ | ⟨⟨name, hr⟩, ht⟩
    · unfold misplaced at hmisplaced
      split at hmisplaced <;> cases hmisplaced
    · exact ⟨before, after, r, hps, hrun, fun name hr => (by cases hnext name hr), hstep⟩
    · exact absurd (hnext name hr) ht
  · rcases error_of_finish hend with hunexpected | ⟨name, hr⟩
    · cases hunexpected
    · exact nomatch h.answered ps [] r name (List.append_nil ps).symm hrun hr

theorem Equation.error_of_side {err : SyntaxError}
    (h : Equation.side (α := α) ps = .error err) :
    err = .invalidToken equalsSign.lexeme ∨ Expr.ofTokens (α := α) ps = .error err := by
  unfold side at h
  split at h
  · cases h
    exact .inl rfl
  · exact .inr h

/-- Where an equation has no function name, one of its sides has none. -/
theorem Equation.exists_side_of_missing
    (h : Equation.ofTokens (α := α) ts = .error .missingFunctionName) :
    ∃ ps ∈ parts ts, Expr.ofTokens (α := α) ps = .error .missingFunctionName := by
  unfold Equation.ofTokens at h
  split at h
  · cases h
  · rcases except_bind_eq_error.mp h with hleft | ⟨l, -, h⟩
    · exact ⟨_, by simp [parts], (error_of_side hleft).resolve_left nofun⟩
    · rcases except_bind_eq_error.mp h with hright | ⟨r, -, h⟩
      · exact ⟨_, by simp [parts], (error_of_side hright).resolve_left nofun⟩
      · cases h
  · cases h

theorem Expr.exists_part_of_missing (hts : Token.ofText text = .ok ts)
    (h : Expr.ofText (α := α) text = .error .missingFunctionName ∨
      Equation.ofText (α := α) text = .error .missingFunctionName) :
    ∃ ps ∈ parts ts, Expr.ofTokens (α := α) ps = .error .missingFunctionName := by
  rcases h with h | h
  · unfold Expr.ofText at h
    rw [hts] at h
    replace h : (if ts.contains equalsSign then do return (← Equation.ofTokens ts).toExpr
      else Expr.ofTokens ts : Except SyntaxError (Expr α)) = .error .missingFunctionName := h
    split at h
    · rcases except_bind_eq_error.mp h with h | ⟨e, -, h⟩
      · exact Equation.exists_side_of_missing h
      · cases h
    · exact ⟨ts, by simp [parts], h⟩
  · unfold Equation.ofText at h
    rw [hts] at h
    exact Equation.exists_side_of_missing h

/-! ## Whole texts -/

omit [Scalar α] [Numeral α] in
/-- An operand is expected at the front and behind a token that awaits one. -/
theorem Token.expectsOperand_getLast? : expectsOperand before.getLast? = true ↔
    before = [] ∨ ∃ init u, before = init ++ [u] ∧ AwaitsOperand u := by
  rcases List.eq_nil_or_concat' before with rfl | ⟨init, u, rfl⟩
  · exact iff_of_true rfl (.inl rfl)
  · rw [List.getLast?_concat, expectsOperand_some]
    simp

variable (α) in
/-- The tokens of a text are those that a scan reads, which spell the text without its blanks, with
a product directly before each token that meets the one before it. A minus sign is a negation at the
front and behind a token that awaits an operand, and a difference elsewhere. A parenthesis stands
behind each function name, so it is there when it is waited for, and the text is refused for a
missing function name only at a comma in a parenthesis that is no call. -/
theorem ofText_lossless (h : Token.ofText text = .ok ts) :
    ∃ raw, Token.scan none text.toList = .ok raw ∧ Inserted raw ts ∧
      spell raw = inked text.toList ∧
      (∀ before t after, raw = before ++ t :: after → t.lexeme = "-" →
        (t = .negation ∨ t = .operator .sub) ∧ (t = .negation ↔
          before = [] ∨ ∃ init u, before = init ++ [u] ∧ AwaitsOperand u)) ∧
      Opened ts ∧ (∀ ps ∈ parts ts, Answered α ps) ∧
      (Expr.ofText (α := α) text = .error .missingFunctionName ∨
        Equation.ofText (α := α) text = .error .missingFunctionName →
          ∃ ps ∈ parts ts, CommaRefused α ps) := by
  obtain ⟨raw, hlexes, rfl⟩ := lexes_of_ofText h
  have hopened : Opened (withProducts raw) := hlexes.opened.withProducts
  refine ⟨raw, hlexes.scan_eq, inserted_withProducts raw, hlexes.spells, ?_, hopened,
    fun ps hps => (hopened.of_mem_parts hps).answered, fun hmissing => ?_⟩
  · rintro before t after rfl ht
    have hminus := hlexes.minus ht
    rw [Option.or_none] at hminus
    rw [← expectsOperand_getLast?]
    by_cases hexpects : expectsOperand before.getLast? = true
    · rw [if_pos hexpects] at hminus
      exact ⟨.inl hminus, iff_of_true hminus hexpects⟩
    · rw [if_neg hexpects] at hminus
      exact ⟨.inr hminus, iff_of_false (by rw [hminus]; nofun) hexpects⟩
  · obtain ⟨ps, hps, herror⟩ := Expr.exists_part_of_missing h hmissing
    exact ⟨ps, hps, (hopened.of_mem_parts hps).commaRefused herror⟩

/-- In `2x(-y) = max (3, (1,2))` one product is put in, between the second and the third token, the
blanks are left out, and the second comma is refused. -/
theorem ofText_lossless_equation : let text := "2x(-y) = max (3, (1,2))"
    let ts : List Token := [.number "2", .var "x", .operator .mul, .leftParen, .negation, .var "y",
      .rightParen, .operator .equals, .function "max", .leftParen, .number "3", .comma, .leftParen,
      .number "1", .comma, .number "2", .rightParen, .rightParen]
    Token.ofText text = .ok ts ∧ ∃ raw, Token.scan none text.toList = .ok raw ∧ Inserted raw ts ∧
      spell raw = "2x(-y)=max(3,(1,2))".toList ∧ ∃ ps ∈ parts ts, CommaRefused Float ps := by
  intro text ts
  have htokens : Token.ofText text = .ok ts := by decide +kernel
  have hinked : inked text.toList = "2x(-y)=max(3,(1,2))".toList := by decide +kernel
  have herror : Equation.ofText (α := Float) text = .error .missingFunctionName := by
    rw [Equation.ofText, htokens]
    rfl
  obtain ⟨raw, hraw, hinserted, hspell, -, -, -, hmissing⟩ := ofText_lossless Float htokens
  exact ⟨htokens, raw, hraw, hinserted, hspell.trans hinked, hmissing (.inr herror)⟩

end SymbolicAlgebra
