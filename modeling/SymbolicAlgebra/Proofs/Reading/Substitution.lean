import SymbolicAlgebra.Proofs.Exact.Evaluation
import SymbolicAlgebra.Proofs.Reading.RoundTrip
import SymbolicAlgebra.Proofs.Token.Substitution

/-!
# A number in the place of the variables of a phrase

A coefficient and an exponent belong to the variable beside them, but not to the
parentheses that stand for it: there they are an operand of a product and of a
power. So `2x^3` becomes `2*(n)^3`, which groups with its neighbours in other
ways. It has the value of the monomial unless a neighbour binds more tightly than
the product, or than the power: an operator `/`, `%` or `^` on the left, another
`^` on the right, or a negation right before the variable.

Results:
* `outcome_monomial`: what a monomial becomes.
* `outcome`: what a phrase becomes, by induction over the grammar.
* `groupsAlike_of_products`: sums, differences and products are grouped alike.
-/
namespace SymbolicAlgebra

open Denotes (denote)
open Token (spliced spliced_append spliced_cons)

/-! ## Values -/

namespace Interpretation

section
variable {K : Type} [Field K] [LinearOrder K] [PartialPower K] {I : Interpretation K}

/-- A product may be grouped to the left. -/
theorem value_mul_mul (a b c : Expr (Exact K)) :
    I.value (.binary .mul (.binary .mul a b) c) = I.value (.binary .mul a (.binary .mul b c)) := by
  simp only [value]
  cases I.value a with
  | none => rfl
  | some u =>
    cases I.value b with
    | none => rfl
    | some v =>
      cases I.value c with
      | none => rfl
      | some w => exact congrArg some (mul_assoc u v w)

/-- A negation may be drawn into the left factor. -/
theorem value_negate_mul (a b : Expr (Exact K)) :
    I.value (.binary .mul (.negate a) b) = I.value (.negate (.binary .mul a b)) := by
  simp only [value]
  cases I.value a with
  | none => rfl
  | some u =>
    cases I.value b with
    | none => rfl
    | some v => exact congrArg some (neg_mul u v)

end

section
variable {α K : Type} [Scalar α] [Field K] [LinearOrder K] [FloorRing K] [PartialPower K]
variable [Denotes α K] {I : Interpretation K} {e l r : Expr α} {op : Operator}

theorem value_map_negate {e' : Expr α} (h : I.value (e'.map denote) = I.value (e.map denote)) :
    I.value ((Expr.negate e').map denote) = I.value ((Expr.negate e).map denote) := by
  simp only [Expr.map, value, h]

theorem value_map_binary {l' r' : Expr α} (hl : I.value (l'.map denote) = I.value (l.map denote))
    (hr : I.value (r'.map denote) = I.value (r.map denote)) :
    I.value ((Expr.binary op l' r').map denote) = I.value ((Expr.binary op l r).map denote) := by
  simp only [Expr.map, value, hl, hr]

theorem values_concat (es : List (Expr α)) (e : Expr α) :
    I.values (Expr.mapAll denote (es ++ [e])) =
      (I.values (Expr.mapAll denote es)).bind fun as =>
        (I.value (e.map denote)).map fun a => as ++ [a] := by
  induction es with
  | nil =>
    simp only [List.nil_append, Expr.mapAll, values]
    cases I.value (e.map denote) <;> rfl
  | cons d es ih =>
    simp only [List.cons_append, Expr.mapAll, values, ih]
    cases I.value (d.map denote) with
    | none => rfl
    | some u =>
      cases I.values (Expr.mapAll denote es) with
      | none => rfl
      | some as => cases I.value (e.map denote) <;> rfl

theorem denote_one : (denote (Scalar.natural 1 : α)).get? = some (1 : K) := by
  rw [Denotes.denote_natural 1 (by decide)]
  exact congrArg some Nat.cast_one

theorem value_map_monomial {c x : α} {name : String} :
    I.value ((Expr.monomial ⟨c, name, x⟩ : Expr α).map denote) =
    (denote c).get?.bind fun u =>
      ((denote x).get?.bind (PartialPower.power? (I.assignment name))).map (u * ·) := by
  simp only [Expr.map, value, monomial]
  cases (denote c).get? with
  | none => rfl
  | some u =>
    cases (denote x).get? with
    | none => rfl
    | some y => cases hp : PartialPower.power? (I.assignment name) y <;> simp [hp]

end

end Interpretation

open Interpretation

/-! ## Phrases -/

/-- The places in which a monomial is grouped as the product and the power are that it becomes. -/
structure GroupsAlike (ts : List Token) : Prop where
  /-- A variable with a coefficient is no divisor and no exponent, negations apart. -/
  coefficient : ∀ before op k c name after, ts = before ++ .operator op ::
    (List.replicate k .negation ++ .number c :: .var name :: after) →
      op ≠ .div ∧ op ≠ .mod ∧ op ≠ .pow
  /-- A variable with a coefficient is no base, unless the exponent is its own. -/
  base : ∀ before c name after, ts = before ++ .number c :: .var name :: .operator .pow :: after →
    Raises (.operator .pow :: after)
  /-- A variable right behind a negation has no exponent of its own. -/
  negation : ∀ before name after, ts = before ++ .negation :: .var name :: after → ¬ Raises after

theorem GroupsAlike.of_append (ts : List Token) {us : List Token} (h : GroupsAlike (ts ++ us)) :
    GroupsAlike us where
  coefficient before op k c name after heq :=
    h.coefficient (ts ++ before) op k c name after (by rw [heq, List.append_assoc])
  base before c name after heq :=
    h.base (ts ++ before) c name after (by rw [heq, List.append_assoc])
  negation before name after heq :=
    h.negation (ts ++ before) name after (by rw [heq, List.append_assoc])

/-- Sums, differences and products without negations are grouped alike. -/
theorem groupsAlike_of_products {ts : List Token}
    (h : ∀ t ∈ ts, t ∉ [.operator .div, .operator .mod, .operator .pow, Token.negation]) :
    GroupsAlike ts where
  coefficient before op k c name after heq := by simpa using h (.operator op) (by simp [heq])
  base before c name after heq := absurd (by simp) (h (.operator .pow) (by simp [heq]))
  negation before name after heq := absurd (by simp) (h .negation (by simp [heq]))

/-- The variables have the value `a`, and monomials are grouped alike. -/
structure Instantiable {K : Type} (I : Interpretation K) (a : K) (ts : List Token) : Prop
    extends GroupsAlike ts where
  assigned : ∀ name, .var name ∈ ts → I.assignment name = a

theorem Instantiable.of_append {K : Type} {I : Interpretation K} {a : K} (ts : List Token)
    {us : List Token} (h : Instantiable I a (ts ++ us)) : Instantiable I a us :=
  ⟨h.toGroupsAlike.of_append ts, fun name hname => h.assigned name (List.mem_append_right ts hname)⟩

section
variable {α K : Type} [Scalar α] [Numeral α] [Field K] [LinearOrder K] [FloorRing K]
variable [PartialPower K] [Denotes α K]

/-- What stands behind a variable: its exponent, or nothing that belongs to it. -/
inductive Behind : List Token → α → List Token → Prop
  | nothing {rest : List Token} : ¬ Raises rest → Behind [] (Scalar.natural 1) rest
  | exponent {us rest : List Token} {negative : Bool} {lexeme : String} :
      Exponent us negative lexeme rest →
      Behind us (exponentValue negative lexeme) rest

/-! ### What a phrase becomes -/

section
variable (I : Interpretation K) (lexeme : String)

/-- The tokens become a phrase of the kind `p` whose tree has the value of `e`. -/
def Kept (p : Phrase) (ts : List Token) (e : Expr α) : Prop :=
  ∃ e' : Expr α, I.value (e'.map denote) = I.value (e.map denote) ∧
    ∀ rest, (∀ name after, rest ≠ .var name :: after) → Derives p (spliced lexeme ts) e' rest

/-- A variable with an exponent becomes a power. -/
def Raised (ts : List Token) (e : Expr α) (rest : List Token) : Prop :=
  ∃ name us negative x, ts = .var name :: us ∧ Exponent us negative x rest ∧
    Kept I lexeme .power ts e

/-- A variable with a coefficient becomes a product. The negations before it stay with the
coefficient. -/
def Parted (ts : List Token) (e : Expr α) (rest : List Token) : Prop :=
  ∃ (k : Nat) (c name : String) (us : List Token) (x : α) (l r : Expr α),
    ts = List.replicate k .negation ++ .number c :: .var name :: us ∧ Behind us x rest ∧
      I.value ((Expr.binary .mul l r).map denote) = I.value (e.map denote) ∧
      (∀ rest, Derives .signed (List.replicate k .negation ++ [.number c]) l
        (.operator .mul :: rest)) ∧
      ∀ rest, (∀ name after, rest ≠ .var name :: after) →
        Derives .power (.leftParen :: .number lexeme :: .rightParen :: us) r rest

/-- A call without its closing parenthesis stays one, and its arguments keep their values. -/
def KeptCall (ts : List Token) (e : Expr α) : Prop :=
  ∃ (name : String) (args args' : List (Expr α)), e = .call name args ∧
    I.values (Expr.mapAll denote args') = I.values (Expr.mapAll denote args) ∧
    ∀ rest, (∀ name after, rest ≠ .var name :: after) →
      Derives .call (spliced lexeme ts) (.call name args') rest

/-- What a phrase of each kind becomes. Up to a signed primary a variable may fall apart into a
power or a product; a power takes up the former and a product the latter. -/
def Outcome : Phrase → List Token → Expr α → List Token → Prop
  | .sum, ts, e, _ => Kept I lexeme .sum ts e
  | .product, ts, e, _ => Kept I lexeme .product ts e
  | .power, ts, e, rest => Kept I lexeme .power ts e ∨ Parted I lexeme ts e rest
  | .signed, ts, e, rest =>
    Kept I lexeme .signed ts e ∨ Raised I lexeme ts e rest ∨ Parted I lexeme ts e rest
  | .primary, ts, e, rest | .monomial, ts, e, rest =>
    Kept I lexeme .primary ts e ∨ Raised I lexeme ts e rest ∨ Parted I lexeme ts e rest
  | .call, ts, e, _ => KeptCall I lexeme ts e

end

variable {I : Interpretation K} {lexeme : String} {p q : Phrase} {ts us ls rs rest : List Token}
variable {e l r : Expr α} {op : Operator}

/-! ### Tokens put together -/

theorem spliced_operator (ls : List Token) (op : Operator) (rs : List Token) :
    spliced lexeme (ls ++ .operator op :: rs) =
      spliced lexeme ls ++ .operator op :: spliced lexeme rs :=
  spliced_append (t := .operator op) nofun ls rs

theorem Kept.imp (h : ∀ {ts rest} {e : Expr α}, Derives p ts e rest → Derives q ts e rest)
    (hp : Kept I lexeme p ts e) : Kept I lexeme q ts e := by
  obtain ⟨e', hvalue, he'⟩ := hp
  exact ⟨e', hvalue, fun rest hrest => h (he' rest hrest)⟩

/-- Two phrases with an operator between them. -/
theorem Kept.binary {s : Phrase}
    (h : ∀ {ls rs rest} {l r : Expr α}, Derives p ls l (.operator op :: (rs ++ rest)) →
      Derives q rs r rest → Derives s (ls ++ .operator op :: rs) (.binary op l r) rest)
    (hl : Kept I lexeme p ls l) (hr : Kept I lexeme q rs r) :
    Kept I lexeme s (ls ++ .operator op :: rs) (.binary op l r) := by
  obtain ⟨l', hlvalue, hl'⟩ := hl
  obtain ⟨r', hrvalue, hr'⟩ := hr
  refine ⟨.binary op l' r', value_map_binary hlvalue hrvalue, fun rest hrest => ?_⟩
  rw [spliced_operator]
  exact h (hl' _ (fun _ _ h => nomatch h)) (hr' rest hrest)

theorem spliced_negations (k : Nat) (ts : List Token) :
    spliced lexeme (List.replicate k .negation ++ ts) =
      List.replicate k .negation ++ spliced lexeme ts := by
  induction k with
  | zero => rfl
  | succ k ih =>
    rw [List.replicate_succ, List.cons_append, spliced_cons (t := .negation) nofun, ih]
    rfl

theorem spliced_behind {x : α} (h : Behind us x rest) : spliced lexeme us = us := by
  cases h with
  | nothing => rfl
  | exponent h => cases h <;> rfl

/-- The coefficient, with the negations before it, is a factor of its own. -/
theorem spliced_parted {x : α} {k : Nat} {c name : String} (h : Behind us x rest) :
    spliced lexeme (List.replicate k .negation ++ .number c :: .var name :: us) =
      (List.replicate k .negation ++ [.number c]) ++
        .operator .mul :: .leftParen :: .number lexeme :: .rightParen :: us := by
  rw [spliced_negations, Token.spliced_coefficient, spliced_behind h, List.append_assoc]
  rfl

/-- A coefficient alone is a product by itself. -/
theorem Kept.of_parted (h : Parted I lexeme ts e rest) : Kept I lexeme .product ts e := by
  obtain ⟨k, c, name, us, x, l, r, rfl, hbehind, hvalue, hl, hr⟩ := h
  refine ⟨.binary .mul l r, hvalue, fun rest hrest => ?_⟩
  rw [spliced_parted hbehind]
  exact .multiplicative .mul (.power (.signed (hl _))) (hr rest hrest)

/-- Behind a product, the coefficient and the power are two more factors. -/
theorem Kept.mul_parted (hl : Kept I lexeme .product ls l) (hr : Parted I lexeme rs r rest) :
    Kept I lexeme .product (ls ++ .operator .mul :: rs) (.binary .mul l r) := by
  obtain ⟨l', hlvalue, hl'⟩ := hl
  obtain ⟨k, c, name, us, x, a, b, rfl, hbehind, hvalue, ha, hb⟩ := hr
  refine ⟨.binary .mul (.binary .mul l' a) b, ?_, fun rest hrest => ?_⟩
  · calc I.value ((Expr.binary .mul (.binary .mul l' a) b).map denote)
        = I.value ((Expr.binary .mul l' (.binary .mul a b)).map denote) := value_mul_mul _ _ _
      _ = I.value ((Expr.binary .mul l r).map denote) := value_map_binary hlvalue hvalue
  · have hfactor : Derives .power (List.replicate k .negation ++ [.number c]) a
        (.operator .mul :: (.leftParen :: .number lexeme :: .rightParen :: us ++ rest)) :=
      .signed (ha _)
    have hleft := Derives.multiplicative .mul (hl' _ (by simp)) hfactor
    rw [spliced_operator, spliced_parted hbehind]
    simpa using Derives.multiplicative .mul hleft (hb rest hrest)

/-- A negation before a variable with a coefficient stays with the coefficient. -/
theorem Parted.negate (h : Parted I lexeme ts e rest) :
    Parted I lexeme (.negation :: ts) (.negate e) rest := by
  obtain ⟨k, c, name, us, x, l, r, rfl, hbehind, hvalue, hl, hr⟩ := h
  refine ⟨k + 1, c, name, us, x, .negate l, r, rfl, hbehind, ?_, fun rest => .negated (hl rest), hr⟩
  calc I.value ((Expr.binary .mul (.negate l) r).map denote)
      = I.value ((Expr.negate (.binary .mul l r)).map denote) := value_negate_mul _ _
    _ = I.value ((Expr.negate e).map denote) := value_map_negate hvalue

theorem Kept.negate (h : Kept I lexeme .signed ts e) :
    Kept I lexeme .signed (.negation :: ts) (.negate e) := by
  obtain ⟨e', hvalue, he'⟩ := h
  refine ⟨.negate e', value_map_negate hvalue, fun rest hrest => ?_⟩
  rw [spliced_cons (t := .negation) nofun]
  exact .negated (he' rest hrest)

theorem Kept.parenthesized (h : Kept I lexeme .sum ts e) :
    Kept I lexeme .primary (.leftParen :: (ts ++ [.rightParen])) e := by
  obtain ⟨e', hvalue, he'⟩ := h
  refine ⟨e', hvalue, fun rest _ => ?_⟩
  rw [spliced_cons (t := .leftParen) nofun, spliced_append (t := .rightParen) nofun]
  exact .parenthesized (he' _ nofun)

/-! ### Calls -/

theorem KeptCall.firstArgument {name : String} (h : Kept I lexeme .sum ts e) :
    KeptCall I lexeme (.function name :: .leftParen :: ts) (.call name [e]) := by
  obtain ⟨e', hvalue, he'⟩ := h
  refine ⟨name, [e], [e'], rfl, ?_, fun rest hrest => ?_⟩
  · simp only [Expr.mapAll, values, hvalue]
  · rw [spliced_cons (t := .function name) (by simp), spliced_cons (t := .leftParen) (by simp)]
    exact .firstArgument name (he' rest hrest)

theorem KeptCall.nextArgument {name : String} {args : List (Expr α)}
    (hcall : KeptCall I lexeme ts (.call name args)) (h : Kept I lexeme .sum us e) :
    KeptCall I lexeme (ts ++ .comma :: us) (.call name (args ++ [e])) := by
  obtain ⟨_, _, args', heq, hvalues, hcall'⟩ := hcall
  cases heq
  obtain ⟨e', hvalue, he'⟩ := h
  refine ⟨name, args ++ [e], args' ++ [e'], rfl, ?_, fun rest hrest => ?_⟩
  · rw [values_concat, values_concat, hvalues, hvalue]
  · rw [spliced_append (t := .comma) (by simp), spliced_cons (t := .comma) (by simp)]
    exact .nextArgument (hcall' _ (by simp)) (he' rest hrest)

theorem KeptCall.closed (h : KeptCall I lexeme ts e) :
    Kept I lexeme .primary (ts ++ [.rightParen]) e := by
  obtain ⟨name, args, args', rfl, hvalues, hcall⟩ := h
  refine ⟨.call name args', ?_, fun rest _ => ?_⟩
  · simp only [Expr.map, value, hvalues]
  · rw [spliced_append (t := .rightParen) (by simp)]
    exact .closedCall (hcall _ (by simp))

/-! ### Where a monomial is grouped alike -/

/-- No base of a power is a variable with an exponent of its own. -/
theorem Raised.ne_base (h : Raised I lexeme ts e (.operator .pow :: rest)) : False := by
  obtain ⟨name, us, negative, x, -, hexp, -⟩ := h
  cases hexp with
  | positive hrest | negative hrest => exact hrest rest rfl

/-- No base of a power is a variable with a coefficient. -/
theorem Parted.ne_base (hts : GroupsAlike (ts ++ .operator .pow :: rest))
    (h : Parted I lexeme ts e (.operator .pow :: rest)) : False := by
  obtain ⟨k, c, name, us, x, l, r, rfl, hbehind, -⟩ := h
  cases hbehind with
  | nothing hraises => exact hraises (hts.base (List.replicate k .negation) c name rest (by simp))
  | exponent hexp =>
    cases hexp with
    | positive hrest | negative hrest => exact hrest rest rfl

/-- No variable with a coefficient is a divisor or an exponent. -/
theorem Parted.ne_of_operator (hts : GroupsAlike (.operator op :: (rs ++ rest)))
    (h : Parted I lexeme rs r rest) : op ≠ .div ∧ op ≠ .mod ∧ op ≠ .pow := by
  obtain ⟨k, c, name, us, x, a, b, rfl, -⟩ := h
  exact hts.coefficient [] op k c name (us ++ rest) (by simp)

/-- No variable with an exponent of its own stands behind a negation. -/
theorem Raised.ne_negated (hts : GroupsAlike (.negation :: (ts ++ rest)))
    (h : Raised I lexeme ts e rest) : False := by
  obtain ⟨name, us, negative, x, rfl, hexp, -⟩ := h
  exact hts.negation [] name (us ++ rest) rfl ⟨us, negative, x, rest, hexp, rfl⟩

/-! ### Monomials -/

section
variable {a : K} {cs : List Token} {c x : α} {name : String}

theorem derives_literal (lexeme : String) (rest : List Token) :
    Derives .primary [.leftParen, .number lexeme, .rightParen]
      (.number (literalValue lexeme) : Expr α) rest :=
  .parenthesized (.product (.power (.signed (.primary (.number lexeme nofun)))))

variable (hneg : ∀ x : α, (denote (Scalar.neg x) : Exact K) = Scalar.neg (denote x))
include hneg

/-- An exponent as a tree of its own. -/
theorem exists_exponentTree {negative : Bool} {digits : String}
    (h : Exponent us negative digits rest) : ∃ (ps : List Token) (r : Expr α),
      us = .operator .pow :: ps ∧
      I.value (r.map denote) = (denote (exponentValue negative digits : α)).get? ∧
      ∀ rest, (∀ name after, rest ≠ .var name :: after) → Derives .power ps r rest := by
  cases h with
  | positive =>
    exact ⟨_, .number (literalValue digits), rfl, rfl,
      fun rest hrest => .signed (.primary (.number digits hrest))⟩
  | negative =>
    refine ⟨_, .negate (.number (literalValue digits)), rfl, ?_,
      fun rest hrest => .signed (.negated (.primary (.number digits hrest)))⟩
    rw [exponentValue, hneg]
    simp only [Expr.map, value, Scalar.neg]
    cases (denote (literalValue digits : α)).get? <;> rfl

variable (hlexeme : (denote (literalValue lexeme : α)).get? = some a)
include hlexeme

/-- The literal in parentheses and what stands behind the variable are a power. -/
theorem exists_power (h : Behind us x rest) : ∃ r : Expr α,
    I.value (r.map denote) = (denote x).get?.bind (PartialPower.power? a) ∧
      ∀ rest, (∀ name after, rest ≠ .var name :: after) →
        Derives .power (.leftParen :: .number lexeme :: .rightParen :: us) r rest := by
  cases h with
  | nothing =>
    refine ⟨.number (literalValue lexeme), ?_,
      fun rest _ => .signed (.primary (derives_literal _ _))⟩
    rw [denote_one, Option.bind_some, PartialPower.power?_one]
    exact hlexeme
  | exponent hexp =>
    obtain ⟨ps, r, rfl, hvalue, hr⟩ := exists_exponentTree hneg (I := I) hexp
    refine ⟨.binary .pow (.number (literalValue lexeme)) r, ?_,
      fun rest hrest => .raised (.primary (derives_literal _ _)) (hr rest hrest)⟩
    rw [← hvalue]
    simp only [Expr.map, value, hlexeme]
    cases I.value (r.map denote) <;> rfl

/-- What a monomial becomes. -/
theorem outcome_monomial (hc : Coefficient cs c) (hbehind : Behind us x rest)
    (hname : I.assignment name = a) :
    Outcome I lexeme .monomial (cs ++ .var name :: us) (.monomial ⟨c, name, x⟩) rest := by
  obtain ⟨r, hvalue, hr⟩ := exists_power (I := I) hneg hlexeme hbehind
  cases hc with
  | number digits =>
    refine .inr (.inr ⟨0, digits, name, us, x, .number (literalValue digits), r, rfl, hbehind, ?_,
      fun rest => .primary (.number digits nofun), hr⟩)
    rw [value_map_monomial, hname, ← hvalue]
    simp only [Expr.map, value]
    cases (denote (literalValue digits : α)).get? with
    | none => rfl
    | some u => cases I.value (r.map denote) <;> rfl
  | one =>
    have hone : I.value ((Expr.monomial ⟨Scalar.natural 1, name, x⟩ : Expr α).map denote) =
        (denote x).get?.bind (PartialPower.power? a) := by
      rw [value_map_monomial, denote_one, hname]
      simp
    cases hbehind with
    | nothing =>
      refine .inl ⟨.number (literalValue lexeme), ?_, fun rest _ => derives_literal lexeme rest⟩
      rw [hone, denote_one, Option.bind_some, PartialPower.power?_one]
      exact hlexeme
    | exponent hexp =>
      refine .inr (.inl ⟨name, us, _, _, rfl, hexp, r, hvalue.trans hone.symm, ?_⟩)
      intro rest hrest
      show Derives .power (.leftParen :: .number lexeme :: .rightParen :: spliced lexeme us) r rest
      rw [spliced_behind (α := α) (.exponent hexp)]
      exact hr rest hrest

/-! ### Whole phrases -/

/-- What a phrase becomes. -/
theorem outcome (h : Derives p ts e rest) (hts : Instantiable I a (ts ++ rest)) :
    Outcome I lexeme p ts e rest := by
  induction h with
  | product _ ih => exact (ih hts).imp .product
  | @additive op ls l rs r rest hop _ _ ihl ihr =>
    have hsum : Instantiable I a (ls ++ .operator op :: (rs ++ rest)) := by simpa using hts
    have hright := hsum.of_append ls
    exact .binary (.additive hop) (ihl hsum) (ihr (hright.of_append [.operator op]))
  | power _ ih =>
    rcases ih hts with hkept | hparted
    · exact hkept.imp .power
    · exact .of_parted hparted
  | @multiplicative op ls l rs r rest hop _ _ ihl ihr =>
    have hproduct : Instantiable I a (ls ++ .operator op :: (rs ++ rest)) := by simpa using hts
    have hright := hproduct.of_append ls
    have hl := ihl hproduct
    rcases ihr (hright.of_append [.operator op]) with hkept | hparted
    · exact .binary (.multiplicative hop) hl hkept
    -- a quotient or a remainder would take the coefficient from its variable
    · obtain ⟨hdiv, hmod, -⟩ := hparted.ne_of_operator hright.toGroupsAlike
      cases hop with
      | mul => exact hl.mul_parted hparted
      | div => exact absurd rfl hdiv
      | mod => exact absurd rfl hmod
  | signed _ ih =>
    rcases ih hts with hkept | ⟨_, _, _, _, -, -, hkept⟩ | hparted
    · exact .inl (hkept.imp .signed)
    · exact .inl hkept
    · exact .inr hparted
  | @raised ls l rs r rest _ _ ihl ihr =>
    have hpower : Instantiable I a (ls ++ .operator .pow :: (rs ++ rest)) := by simpa using hts
    have hright := hpower.of_append ls
    -- the base stays one operand: its own exponent is no base, its coefficient is raised alone
    rcases ihl hpower with hbase | hraised | hparted
    · rcases ihr (hright.of_append [.operator .pow]) with hkept | hparted
      · exact .inl (.binary .raised hbase hkept)
      · exact absurd rfl (hparted.ne_of_operator hright.toGroupsAlike).2.2
    · exact hraised.ne_base.elim
    · exact (hparted.ne_base hpower.toGroupsAlike).elim
  | primary _ ih =>
    rcases ih hts with hkept | hother
    · exact .inl (hkept.imp .primary)
    · exact .inr hother
  | negated _ ih =>
    -- behind the negation a power would be the power of what is negated
    rcases ih (hts.of_append [.negation]) with hkept | hraised | hparted
    · exact .inl hkept.negate
    · exact (hraised.ne_negated hts.toGroupsAlike).elim
    · exact .inr (.inr hparted.negate)
  | number digits =>
    exact .inl ⟨.number (literalValue digits), rfl, fun rest hrest => .number digits hrest⟩
  | constant k => exact .inl ⟨.constant k.name k.value, rfl, fun rest _ => .constant k⟩
  | monomial _ ih => exact ih hts
  | parenthesized _ ih =>
    exact .inl (Kept.parenthesized (ih (.of_append [.leftParen] (by simpa using hts))))
  | emptyCall name => exact .inl ⟨.call name [], rfl, fun rest _ => .emptyCall name⟩
  | closedCall _ ih => exact .inl (KeptCall.closed (ih (by simpa using hts)))
  | firstArgument name _ ih =>
    exact .firstArgument (ih (hts.of_append [.function name, .leftParen]))
  | @nextArgument name args ts us e rest _ _ ihcall ih =>
    have hcall : Instantiable I a (ts ++ .comma :: (us ++ rest)) := by simpa using hts
    have hargument := (hcall.of_append ts).of_append [.comma]
    exact .nextArgument (ihcall hcall) (ih hargument)
  | «variable» hc hraises =>
    exact outcome_monomial hneg hlexeme hc (.nothing hraises) (hts.assigned _ (by simp))
  | variablePower hc hexp =>
    exact outcome_monomial hneg hlexeme hc (.exponent hexp) (hts.assigned _ (by simp))

end

end

end SymbolicAlgebra
