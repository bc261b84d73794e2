import SymbolicAlgebra.Expr.OfText
import SymbolicAlgebra.Proofs.Reading.Soundness
import SymbolicAlgebra.Proofs.Token.Canonical

/-!
# Canonical forms read back

A canonical form reads back as the tree it shows, but for its monomials: their
exponents stand in parentheses, so each is read as a power of a monomial.

Results:
* `Derives.not_mem_equals`: no phrase holds an equals sign.
* `exists_spelled`: the tokens of a tree are a phrase that spells it, its
  monomials expanded.
* `ofText_canonical_same`: the canonical form of a readable tree reads back.
-/
namespace SymbolicAlgebra

open Binary64

/-- No phrase holds an equals sign. -/
theorem Derives.not_mem_equals {α : Type} [Scalar α] [Numeral α] {p : Phrase} {ts rest : List Token}
    {e : Expr α} (h : Derives p ts e rest) : Token.equalsSign ∉ ts := by
  unfold Token.equalsSign
  induction h with
  | product _ ih | power _ ih | signed _ ih | primary _ ih | monomial _ ih => exact ih
  | additive hop _ _ ihl ihr =>
    simp [ihl, ihr, hop.ne_equals.symm]
  | multiplicative hop _ _ ihl ihr =>
    simp [ihl, ihr, hop.ne_equals.symm]
  | raised _ _ ihl ihr | nextArgument _ _ ihl ihr => simp [ihl, ihr]
  | negated _ ih | parenthesized _ ih | closedCall _ ih | firstArgument _ _ ih => simp [ih]
  | number | constant | emptyCall => simp
  | «variable» hc => cases hc <;> simp
  | variablePower hc hexp => cases hc <;> cases hexp <;> simp

namespace Expr

section
variable {α : Type} [Scalar α] [Numeral α] {text : String} {ts : List Token} {t : Expr α}

/-- Without an equals sign the tokens of a text are read as an expression. -/
theorem ofText_eq_ofTokens (hts : Token.ofText text = .ok ts) (hequals : Token.equalsSign ∉ ts) :
    Expr.ofText (α := α) text = Expr.ofTokens ts := by
  have hcontains : ts.contains Token.equalsSign = false := by simpa using hequals
  unfold ofText
  rw [hts]
  show (if ts.contains Token.equalsSign then _ else Expr.ofTokens ts) = _
  rw [hcontains]
  rfl

/-- A text whose tokens are a sum reads as the tree that the sum spells. -/
theorem ofText_of_derives (hts : Token.ofText text = .ok ts) (h : Derives .sum ts t []) :
    Expr.ofText text = .ok t :=
  (ofText_eq_ofTokens hts h.not_mem_equals).trans (ofTokens_of_derives h)

/-- The tokens of a text that reads as a tree and no equation are a sum. -/
theorem derives_of_ofText (hts : Token.ofText text = .ok ts) (hequals : Token.equalsSign ∉ ts)
    (h : Expr.ofText text = .ok t) : Derives .sum ts t [] :=
  derives_of_ofTokens ((ofText_eq_ofTokens hts hequals).symm.trans h)

end

/-- The exponent of a monomial as a tree. -/
def exponentTree (x : Float) : Expr Float := if 0.0 ≤ x then .number x else .negate (.number (-x))

mutual

/-- A tree in which every monomial is a power of one with the exponent one. -/
def expand : Expr Float → Expr Float
  | .number x => .number x
  | .negate e => .negate (expand e)
  | .binary op l r => .binary op (expand l) (expand r)
  | .call name args => .call name (expandAll args)
  | .monomial m =>
    .binary .pow (.monomial ⟨m.coefficient, m.var, Scalar.natural 1⟩) (exponentTree m.exponent)
  | .constant name x => .constant name x

/-- A list of trees with their monomials expanded. -/
def expandAll : List (Expr Float) → List (Expr Float)
  | [] => []
  | e :: es => expand e :: expandAll es

end

/-- The tokens of the tree `t` are a phrase that spells `e`, which is `t` with its monomials
expanded. A monomial is a power and no signed primary. -/
structure Spelled (t e : Expr Float) : Prop where
  same : e.same t.expand = true
  power : ∀ rest, (∀ name after, rest ≠ .var name :: after) → Derives .power t.spelling e rest
  signed : t.isMonomial = false → ∀ rest, (∀ name after, rest ≠ .var name :: after) →
    Derives .signed t.spelling e rest

variable {t e l r : Expr Float}

theorem Spelled.of_primary (hsame : e.same t.expand = true)
    (h : ∀ rest, (∀ name after, rest ≠ .var name :: after) → Derives .primary t.spelling e rest) :
    Spelled t e :=
  ⟨hsame, fun rest hrest => .signed (.primary (h rest hrest)),
    fun _ rest hrest => .primary (h rest hrest)⟩

theorem Spelled.sum (h : Spelled t e) {rest : List Token}
    (hrest : ∀ name after, rest ≠ .var name :: after) : Derives .sum t.spelling e rest :=
  .product (.power (h.power rest hrest))

theorem spelled_number {x : Float} (hx : ReadsBack x) :
    Spelled (.number x) (.number (literalValue (Numeral.text x))) :=
  .of_primary hx.same fun _ hrest => .number _ hrest

theorem spelled_negate (h : Spelled t e) : Spelled (.negate t) (.negate e) := by
  have hphrase : ∀ rest, Derives .signed (.negate t : Expr Float).spelling (.negate e) rest :=
    fun rest => .negated (.primary (.parenthesized (h.sum nofun)))
  exact ⟨h.same, fun rest _ => .signed (hphrase rest), fun _ rest _ => hphrase rest⟩

/-- The inside of the parentheses of an operation. -/
theorem derives_binary {a b : Expr Float} {op : Operator} {rest : List Token}
    (hop : op ≠ .equals) (hbase : op = .pow → l.isMonomial = false) (hl : Spelled l a)
    (hr : Spelled r b) (hrest : ∀ name after, rest ≠ .var name :: after) :
    Derives .sum (l.spelling ++ .operator op :: r.spelling) (.binary op a b) rest := by
  have hnext : ∀ name after, .operator op :: (r.spelling ++ rest) ≠ .var name :: after := nofun
  cases op with
  | equals => exact absurd rfl hop
  | add => exact .additive .add (hl.sum hnext) (.power (hr.power rest hrest))
  | sub => exact .additive .sub (hl.sum hnext) (.power (hr.power rest hrest))
  | mul => exact .product (.multiplicative .mul (.power (hl.power _ hnext)) (hr.power rest hrest))
  | div => exact .product (.multiplicative .div (.power (hl.power _ hnext)) (hr.power rest hrest))
  | mod => exact .product (.multiplicative .mod (.power (hl.power _ hnext)) (hr.power rest hrest))
  | pow => exact .product (.power (.raised (hl.signed (hbase rfl) _ hnext) (hr.power rest hrest)))

theorem spelled_binary {a b : Expr Float} {op : Operator} (hop : op ≠ .equals)
    (hbase : op = .pow → l.isMonomial = false) (hl : Spelled l a) (hr : Spelled r b) :
    Spelled (.binary op l r) (.binary op a b) := by
  refine .of_primary (by simp [expand, same, hl.same, hr.same]) fun rest _ => ?_
  have hinside : Derives .sum (l.spelling ++ .operator op :: r.spelling) (.binary op a b)
      (.rightParen :: rest) := derives_binary hop hbase hl hr (by simp)
  simpa [spelling] using Derives.parenthesized hinside

/-- The parentheses of an exponent hold a literal, behind a minus sign if it is below zero. -/
theorem exists_exponent {x : Float} (hx : ReadsBack (magnitude x)) :
    ∃ e : Expr Float, e.same (exponentTree x) = true ∧
      ∀ rest, Derives .sum (exponentTokens x) e (.rightParen :: rest) := by
  have hnumber : ∀ lexeme rest, Derives .primary [.number lexeme]
      (.number (literalValue lexeme) : Expr Float) (.rightParen :: rest) :=
    fun lexeme rest => .number lexeme nofun
  unfold magnitude at hx
  unfold exponentTree exponentTokens
  by_cases hsign : 0.0 ≤ x
  · rw [if_pos hsign] at hx ⊢
    rw [if_pos hsign]
    exact ⟨.number (literalValue (Numeral.text x)), hx.same,
      fun rest => .product (.power (.signed (.primary (hnumber _ rest))))⟩
  · rw [if_neg hsign] at hx ⊢
    rw [if_neg hsign]
    exact ⟨.negate (.number (literalValue (Numeral.text (-x)))), hx.same,
      fun rest => .product (.power (.signed (.negated (.primary (hnumber _ rest)))))⟩

/-- The parenthesis behind `^` keeps the exponent from the variable. -/
theorem not_raises_paren (ts : List Token) : ¬ Raises (.operator .pow :: .leftParen :: ts) := by
  rintro ⟨us, negative, lexeme, rest, hexp, heq⟩
  cases hexp <;> cases heq

theorem exists_spelled_monomial {m : Monomial Float} (hc : ReadsBack m.coefficient)
    (hx : ReadsBack (magnitude m.exponent)) : ∃ e, Spelled (.monomial m) e := by
  obtain ⟨e, hsame, hexponent⟩ := exists_exponent hx
  let base : Expr Float :=
    .monomial ⟨literalValue (Numeral.text m.coefficient), m.var, Scalar.natural 1⟩
  have hone : Scalar.same (Scalar.natural 1 : Float) (Scalar.natural 1) = true :=
    LawfulSign.same_self _
  refine ⟨.binary .pow base e, ?_, fun rest _ => ?_, nofun⟩
  · simp [base, expand, same, Monomial.same, hc.same, hsame, hone]
  · have hbase : Derives .signed [.number (Numeral.text m.coefficient), .var m.var] base
        (.operator .pow :: .leftParen :: (exponentTokens m.exponent ++ .rightParen :: rest)) :=
      .primary (.monomial (.variable (.number _) (not_raises_paren _)))
    have hpower : Derives .power (.leftParen :: (exponentTokens m.exponent ++ [.rightParen])) e
        rest := .signed (.primary (.parenthesized (hexponent rest)))
    have hraised : Derives .power ([.number (Numeral.text m.coefficient), .var m.var] ++
        .operator .pow :: .leftParen :: (exponentTokens m.exponent ++ [.rightParen]))
        (.binary .pow base e) rest := .raised (by simpa using hbase) hpower
    simpa [spelling] using hraised

theorem spelled_constant (c : NamedConstant) :
    Spelled (.constant c.name c.value) (.constant c.name c.value) := by
  have hsame : Scalar.same (c.value : Float) c.value = true := LawfulSign.same_self _
  refine .of_primary (by simp [expand, same, hsame]) fun rest _ => ?_
  simpa [spelling, NamedConstant.ofName?_name] using Derives.constant c

/-! ## Calls -/

/-- Further arguments of a call, each behind a comma. -/
theorem exists_arguments {es : List (Expr Float)} (h : ∀ t ∈ es, ∃ e, Spelled t e) :
    ∃ args, sameAll args (expandAll es) = true ∧ ∀ name before ts rest,
      Derives .call ts (.call name before) (spellings es ++ .rightParen :: rest) →
        Derives .call (ts ++ spellings es) (.call name (before ++ args)) (.rightParen :: rest) := by
  induction es with
  | nil => exact ⟨[], rfl, fun name before ts rest hcall => by simpa [spellings] using hcall⟩
  | cons t es ih =>
    rw [List.forall_mem_cons] at h
    obtain ⟨⟨e, he⟩, hes⟩ := h
    obtain ⟨args, hsame, hargs⟩ := ih hes
    refine ⟨e :: args, by simp [sameAll, expandAll, he.same, hsame], ?_⟩
    intro name before ts rest hcall
    have hargument : Derives .sum t.spelling e (spellings es ++ .rightParen :: rest) := by
      refine he.sum ?_
      cases es <;> simp [spellings]
    have hnext := Derives.nextArgument (by simpa [spellings] using hcall) hargument
    simpa [spellings] using hargs name _ _ rest hnext

theorem exists_spelled_call {name : String} {es : List (Expr Float)}
    (h : ∀ t ∈ es, ∃ e, Spelled t e) : ∃ e, Spelled (.call name es) e := by
  cases es with
  | nil => exact ⟨.call name [], .of_primary (by simp [expand, expandAll, same, sameAll])
      fun rest _ => .emptyCall name⟩
  | cons t es =>
    rw [List.forall_mem_cons] at h
    obtain ⟨⟨e, he⟩, hes⟩ := h
    obtain ⟨args, hsame, hargs⟩ := exists_arguments hes
    refine ⟨.call name (e :: args), .of_primary ?_ fun rest _ => ?_⟩
    · simp [expand, expandAll, same, sameAll, he.same, hsame]
    · have hargument : Derives .sum t.spelling e (spellings es ++ .rightParen :: rest) := by
        refine he.sum ?_
        cases es <;> simp [spellings]
      have hcall := hargs name _ _ rest (.firstArgument name hargument)
      simpa [spelling] using Derives.closedCall hcall

/-! ## Whole trees -/

/-- The tokens of a readable tree are a phrase. -/
theorem exists_spelled (h : Readable t) : ∃ e, Spelled t e := by
  induction t with
  | number x => exact ⟨_, spelled_number (forall_subtrees_number.mp h)⟩
  | negate t ih =>
    obtain ⟨e, he⟩ := ih (forall_subtrees_negate.mp h).2
    exact ⟨_, spelled_negate he⟩
  | binary op l r ihl ihr =>
    obtain ⟨⟨hop, hbase⟩, hl, hr⟩ := forall_subtrees_binary.mp h
    obtain ⟨a, ha⟩ := ihl hl
    obtain ⟨b, hb⟩ := ihr hr
    exact ⟨_, spelled_binary hop hbase ha hb⟩
  | call name args ih =>
    obtain ⟨-, hargs⟩ := forall_subtrees_call.mp h
    exact exists_spelled_call fun a ha => ih a ha (hargs a ha)
  | monomial m =>
    obtain ⟨hc, -, hx⟩ := forall_subtrees_monomial.mp h
    exact exists_spelled_monomial hc hx
  | constant name x =>
    obtain ⟨c, rfl, rfl⟩ := forall_subtrees_constant.mp h
    exact ⟨_, spelled_constant c⟩

/-- The canonical form of a readable tree reads back as the tree, its monomials expanded. -/
theorem ofText_canonical_same (h : Readable t) :
    ∃ e, Expr.ofText t.canonical = .ok e ∧ e.same t.expand = true := by
  obtain ⟨e, he⟩ := exists_spelled h
  have hphrase : Derives .sum t.spelling e [] := he.sum nofun
  exact ⟨e, ofText_of_derives (Token.ofText_canonical h) hphrase, he.same⟩

/-- `-(pow((2x^(-3)%0.5), PI))` reads back, its monomial being a power. -/
theorem ofText_canonical_same_call :
    let t : Expr Float := .negate (.call "pow"
      [.binary .mod (.monomial ⟨2.0, "x", -3.0⟩) (.number 0.5),
        .constant "PI" NamedConstant.pi.value])
    Readable t ∧ ∃ e, Expr.ofText t.canonical = .ok e ∧ e.same t.expand = true := by
  intro t
  have htwo : ReadsBack 2.0 :=
    ⟨⟨by decide +kernel, by decide +kernel, .inl (by decide +kernel)⟩, by decide +kernel⟩
  have hthree : ReadsBack (magnitude (-3.0)) :=
    ⟨⟨by decide +kernel, by decide +kernel, .inl (by decide +kernel)⟩, by decide +kernel⟩
  have hhalf : ReadsBack 0.5 :=
    ⟨⟨by decide +kernel, by decide +kernel, .inr (by decide +kernel)⟩, by decide +kernel⟩
  have hx : Token.IsVariable "x" := ⟨'x', rfl, by decide, rfl⟩
  have hpow : Token.IsFunctionName "pow" :=
    ⟨'p', ['o', 'w'], rfl, by decide, List.all_eq_true.mp (by decide), by decide +kernel⟩
  have hremainder : Readable (.binary .mod (.monomial ⟨2.0, "x", -3.0⟩) (.number 0.5)) :=
    forall_subtrees_binary.mpr ⟨⟨by decide, nofun⟩,
      forall_subtrees_monomial.mpr ⟨htwo, hx, hthree⟩, forall_subtrees_number.mpr hhalf⟩
  have hconstant : Readable (.constant "PI" NamedConstant.pi.value) :=
    forall_subtrees_constant.mpr ⟨.pi, rfl, rfl⟩
  have ht : Readable t := by
    refine forall_subtrees_negate.mpr ⟨trivial, forall_subtrees_call.mpr ⟨hpow, ?_⟩⟩
    intro a ha
    rcases List.mem_pair.mp ha with rfl | rfl
    · exact hremainder
    · exact hconstant
  exact ⟨ht, ofText_canonical_same ht⟩

end Expr
end SymbolicAlgebra
