import SymbolicAlgebra.Proofs.Reading.Substitution

/-!
# The value of a text at a number

A text with variables has a value where the variables have one. The evaluator
knows no variables, but it can be given the number in their place, in
parentheses. Both come to the same value, unless the parentheses are grouped
with other neighbours than the monomial was, or turn a constant into a function.

Results:
* `instantiate_value`: the two values are the same.
* `instantiate_value_regroups`: `4/2x`, `2x^(3)`, `-x^2` and `E x` at the number two.
-/
namespace SymbolicAlgebra

open Denotes (denote)
open Token (spliced)

/-! ## Trees of texts without variables -/

/-- No variable is left. -/
theorem Token.var_not_mem_spliced (lexeme name : String) (ts : List Token) :
    Token.var name ∉ spliced lexeme ts := by
  fun_induction spliced lexeme ts with
  | case1 _ _ _ ih | case2 _ _ ih => simp [ih]
  | case3 t _ _ hvar ih =>
    rw [List.mem_cons, not_or]
    exact ⟨fun h => hvar name h.symm, ih⟩
  | case4 => exact List.not_mem_nil

/-- A phrase without variables spells a tree without monomials. -/
theorem Derives.monomialFree {α : Type} [Scalar α] [Numeral α] {p : Phrase} {ts rest : List Token}
    {e : Expr α} (h : Derives p ts e rest) (hvars : ∀ name, .var name ∉ ts) : e.MonomialFree := by
  induction h with
  | product _ ih | power _ ih | signed _ ih | primary _ ih | monomial _ ih => exact ih hvars
  | additive _ _ _ ihl ihr | multiplicative _ _ _ ihl ihr | raised _ _ ihl ihr =>
    exact Expr.forall_subtrees_binary.mpr
      ⟨rfl, ihl fun name h => hvars name (by simp [h]), ihr fun name h => hvars name (by simp [h])⟩
  | negated _ ih =>
    exact Expr.forall_subtrees_negate.mpr ⟨rfl, ih fun name h => hvars name (by simp [h])⟩
  | number => exact Expr.forall_subtrees_number.mpr rfl
  | constant => exact Expr.forall_subtrees_constant.mpr rfl
  | parenthesized _ ih | closedCall _ ih => exact ih fun name h => hvars name (by simp [h])
  | emptyCall => exact Expr.forall_subtrees_call.mpr ⟨rfl, by simp⟩
  | firstArgument _ _ ih =>
    refine Expr.forall_subtrees_call.mpr ⟨rfl, fun a ha => ?_⟩
    rw [List.mem_singleton.mp ha]
    exact ih fun name h => hvars name (by simp [h])
  | nextArgument _ _ ihcall ih =>
    obtain ⟨-, hargs⟩ :=
      Expr.forall_subtrees_call.mp (ihcall fun name h => hvars name (by simp [h]))
    refine Expr.forall_subtrees_call.mpr ⟨rfl, fun a ha => ?_⟩
    rcases List.mem_append.mp ha with ha | ha
    · exact hargs a ha
    · rw [List.mem_singleton.mp ha]
      exact ih fun name h => hvars name (by simp [h])
  | @«variable» _ _ name _ _ _ => exact absurd (by simp) (hvars name)
  | @variablePower _ _ name _ _ _ _ _ _ => exact absurd (by simp) (hvars name)

namespace Interpretation

section
variable {α K : Type} [Elementary α] [Numeral α] [Field K] [LinearOrder K] [FloorRing K]
variable [PartialPower K] [Denotes α K]

/-- At a number `n` that is read exactly, a text whose only variable is `x` and the text with `(n)`
in the place of `x` have the same value, if monomials are grouped alike and no constant stands right
before a variable. If evaluating the second rounds nothing, it comes to that value. -/
theorem instantiate_value {I : Interpretation K} {text x : String} {n : ℕ} {raw : List Token}
    {t : Expr α} (hI : I.Evaluator) (hx : I.assignment x = n)
    (hneg : ∀ y : α, (denote (Scalar.neg y) : Exact K) = Scalar.neg (denote y))
    (hn : (denote (literalValue (toString n) : α)).get? = some (n : K))
    (ht : Expr.ofText text = .ok t) (hequals : '=' ∉ text.toList)
    (hraw : Token.scan none text.toList = .ok raw) (hvars : ∀ name, .var name ∈ raw → name = x)
    (hgroups : GroupsAlike (Token.withProducts raw)) (hseparate : Token.Separate raw) :
    ∃ t' : Expr α, Expr.ofText (Token.instantiate (toString n) text) = .ok t' ∧
      I.value (t'.map denote) = I.value (t.map denote) ∧
      ∀ v, I.value (t.map denote) = some v → I.Exactly t' →
        ∃ y, t'.value = .ok y ∧ denote y = ⟨some v⟩ := by
  have htokens : Token.ofText text = .ok (Token.withProducts raw) := by
    rw [Token.ofText, hraw]
    rfl
  have hsign : Token.equalsSign ∉ Token.withProducts raw := fun h =>
    hequals ((Token.lexes_of_scan hraw).mem_of_equals (Token.mem_withProducts h (by simp)))
  have hderives : Derives .sum (Token.withProducts raw) t [] :=
    Expr.derives_of_ofText htokens hsign ht
  have hwhole : Instantiable I (n : K) (Token.withProducts raw ++ []) := by
    rw [List.append_nil]
    refine ⟨hgroups, fun name hname => ?_⟩
    rw [hvars name (Token.mem_withProducts hname (by simp)), hx]
  obtain ⟨t', hvalue, ht'⟩ := outcome hneg hn hderives hwhole
  have hspliced := ht' [] (by simp)
  have hfree : t'.MonomialFree :=
    hspliced.monomialFree fun name => Token.var_not_mem_spliced _ name _
  refine ⟨t', Expr.ofText_of_derives ?_ hspliced, hvalue, fun v hv hexact => ?_⟩
  · exact Token.ofText_instantiate (Binary64.isLiteral_toString n) hraw hseparate
  · exact exists_value hI hfree hexact (hvalue.trans hv)

end

/-- The evaluator's reading, with a value for every variable. It gives no function a meaning. -/
def evaluatedAt (a : ℚ) : Interpretation ℚ := { evaluated with assignment := fun _ => a }

theorem evaluator_evaluatedAt (a : ℚ) : (evaluatedAt a).Evaluator :=
  ⟨fun _ _ _ h => (nomatch h), fun _ _ => rfl⟩

/-- At `3`, `2x(x+1)-x` is `21`, which `2(3)((3)+1)-(3)` evaluates to. -/
theorem instantiate_value_product :
    let text := "2x(x+1)-x"
    let t : Expr Float := .binary .sub (.binary .mul (.monomial ⟨2.0, "x", 1.0⟩)
      (.binary .add (.monomial ⟨1.0, "x", 1.0⟩) (.number 1.0))) (.monomial ⟨1.0, "x", 1.0⟩)
    Expr.ofText text = .ok t ∧ (evaluatedAt 3).value (t.map denote) = some 21 ∧
      ∃ (t' : Expr Float) (y : Float), Expr.ofText (Token.instantiate (toString 3) text) = .ok t' ∧
        t'.value = .ok y ∧ denote y = ⟨some 21⟩ := by
  intro text t
  have ht : Expr.ofText text = .ok t := Expr.eq_ok_of_agrees (by decide +kernel)
  have hv : (evaluatedAt 3).value (t.map denote) = some 21 := by decide +kernel
  have hraw : Token.scan none text.toList = .ok [.number "2", .var "x", .leftParen, .var "x",
      .operator .add, .number "1", .rightParen, .operator .sub, .var "x"] := by decide +kernel
  obtain ⟨t', ht', -, heval⟩ := instantiate_value (x := "x") (n := 3) (evaluator_evaluatedAt 3) rfl
    Binary64.denote_neg (by decide +kernel) ht (by decide) hraw (by simp)
    (groupsAlike_of_products (by decide)) (by simp [Token.Separate])
  let factor : Expr Float := .binary .mul (.number 2.0) (.number 3.0)
  let sum : Expr Float := .binary .add (.number 3.0) (.number 1.0)
  have hshape : t' = .binary .sub (.binary .mul factor sum) (.number 3.0) := by
    have hread : Expr.ofText (Token.instantiate (toString 3) text) =
        .ok (.binary .sub (.binary .mul factor sum) (.number 3.0)) :=
      Expr.eq_ok_of_agrees (by decide +kernel)
    exact Except.ok.inj (ht'.symm.trans hread)
  have hfactor : factor.EvaluatesExactly :=
    evaluatesExactly_of_value (z := 6.0) rfl rfl (by decide +kernel) (by decide +kernel)
      (Expr.evaluatesExactly_number _) (Expr.evaluatesExactly_number _)
  have hsum : sum.EvaluatesExactly :=
    evaluatesExactly_of_value (z := 4.0) rfl rfl (by decide +kernel) (by decide +kernel)
      (Expr.evaluatesExactly_number _) (Expr.evaluatesExactly_number _)
  have hproduct : (Expr.binary .mul factor sum).EvaluatesExactly :=
    evaluatesExactly_of_value (x := 6.0) (y := 4.0) (z := 24.0) (by decide +kernel)
      (by decide +kernel) (by decide +kernel) (by decide +kernel) hfactor hsum
  have hexact : t'.EvaluatesExactly := by
    rw [hshape]
    exact evaluatesExactly_of_value (x := 24.0) (z := 21.0) (by decide +kernel) rfl
      (by decide +kernel) (by decide +kernel) hproduct (Expr.evaluatesExactly_number _)
  have hexactly : (evaluatedAt 3).Exactly t' := by
    refine ⟨hexact, fun name args hmem => ?_⟩
    rw [hshape] at hmem
    simp [factor, sum, Expr.subtrees] at hmem
  obtain ⟨y, hy, hdy⟩ := heval 21 hv hexactly
  exact ⟨ht, hv, t', y, ht', hy, hdy⟩

/-- At the number two the text has the value `u`, and with the number in the place of its variables
it has the value `v`. -/
def Values (text : String) (u v : ℚ) : Prop :=
  ∃ t t' : Expr Float, Expr.ofText text = .ok t ∧
    Expr.ofText (Token.instantiate (toString 2) text) = .ok t' ∧
    (evaluatedAt 2).value (t.map denote) = some u ∧ (evaluatedAt 2).value (t'.map denote) = some v

theorem values_of_agrees {text : String} {u v : ℚ} (t t' : Expr Float)
    (ht : (Expr.ofText text).toOption.any (fun e => e.agrees t) = true)
    (ht' : (Expr.ofText (Token.instantiate (toString 2) text)).toOption.any
      (fun e => e.agrees t') = true)
    (hu : (evaluatedAt 2).value (t.map denote) = some u)
    (hv : (evaluatedAt 2).value (t'.map denote) = some v) : Values text u v :=
  ⟨t, t', Expr.eq_ok_of_agrees ht, Expr.eq_ok_of_agrees ht', hu, hv⟩

/-- Behind `/`, `%` and `^` a coefficient is grouped away from its variable, before `^` it is not
raised with it, and a negation is raised with the variable behind it. A constant before a
parenthesis is a function. So `4/2x` is `1` at `2`, and `4/2(2)` evaluates to `4`. -/
theorem instantiate_value_regroups :
    (Values "4/2x" 1 4 ∧ ∃ t' : Expr Float,
      Expr.ofText (Token.instantiate (toString 2) "4/2x") = .ok t' ∧ t'.value = .ok 4.0) ∧
    Values "5%2x" 1 2 ∧ Values "2^2x" 16 8 ∧ Values "2x^(3)" 64 16 ∧ Values "-x^2" (-4) 4 ∧
    ∃ t t' : Expr Float, Expr.ofText "E x" = .ok t ∧
      Expr.ofText (Token.instantiate (toString 2) "E x") = .ok t' ∧
        ((evaluatedAt 2).value (t.map denote)).isSome = true ∧
        t'.value = .error (.unknownFunction "E") := by
  have hcall : Derives .sum [.function "E", .leftParen, .number "2", .rightParen]
      (.call "E" [.number (literalValue "2")] : Expr Float) [] :=
    .product (.power (.signed (.primary (.closedCall (.firstArgument "E"
      (.product (.power (.signed (.primary (.number "2" nofun))))))))))
  let twoX : Expr Float := .monomial ⟨2.0, "x", 1.0⟩
  let two : Expr Float := .number 2.0
  refine ⟨⟨?_, ?_⟩, ?_, ?_, ?_, ?_, ?_⟩
  · exact values_of_agrees (.binary .div (.number 4.0) twoX)
      (.binary .mul (.binary .div (.number 4.0) two) two)
      (by decide +kernel) (by decide +kernel) (by decide +kernel) (by decide +kernel)
  · exact ⟨.binary .mul (.binary .div (.number 4.0) two) two,
      Expr.eq_ok_of_agrees (by decide +kernel), by decide +kernel⟩
  · exact values_of_agrees (.binary .mod (.number 5.0) twoX)
      (.binary .mul (.binary .mod (.number 5.0) two) two)
      (by decide +kernel) (by decide +kernel) (by decide +kernel) (by decide +kernel)
  · exact values_of_agrees (.binary .pow two twoX) (.binary .mul (.binary .pow two two) two)
      (by decide +kernel) (by decide +kernel) (by decide +kernel) (by decide +kernel)
  · exact values_of_agrees (.binary .pow twoX (.number 3.0))
      (.binary .mul two (.binary .pow two (.number 3.0)))
      (by decide +kernel) (by decide +kernel) (by decide +kernel) (by decide +kernel)
  · exact values_of_agrees (.negate (.monomial ⟨1.0, "x", 2.0⟩)) (.binary .pow (.negate two) two)
      (by decide +kernel) (by decide +kernel) (by decide +kernel) (by decide +kernel)
  · exact ⟨.binary .mul (.constant "E" NamedConstant.e.value) (.monomial ⟨1.0, "x", 1.0⟩),
      .call "E" [.number (literalValue "2")], Expr.eq_ok_of_agrees (by decide +kernel),
      Expr.ofText_of_derives (by decide +kernel) hcall, by decide +kernel, by decide +kernel⟩

end Interpretation
end SymbolicAlgebra
