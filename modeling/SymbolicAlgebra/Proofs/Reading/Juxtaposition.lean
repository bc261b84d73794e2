import SymbolicAlgebra.Proofs.Reading.RoundTrip
import SymbolicAlgebra.Proofs.Rewrite.Steps
import SymbolicAlgebra.Proofs.Token.Juxtaposition
import SymbolicAlgebra.Proofs.Token.Kind

/-!
# A product that is only meant

Where a product is put between two texts, a sum behind a sum is a sum: the last
product of the first takes the powers of the second, up to its first `+` or `-`.
No product is put between a number and a variable, for the number may be the
coefficient. It is one where the number is an operand of its own. But behind a
variable and `^` the number has become an exponent, and the variable behind it is
refused.

Results:
* `Derives.of_admits`: what may stand behind a phrase.
* `exists_sum_mul`: a sum, `*` and a sum are a sum.
* `exists_sum_coefficient`: a sum that ends with a number goes on with a variable, unless the
  number is an exponent.
* `Expr.ofTokens_refused`: a variable behind an exponent is refused.
* `Expr.ofText_juxtaposed`: which texts can stand side by side.
-/
namespace SymbolicAlgebra

open Reading

variable {α : Type} [Scalar α] [Numeral α]
variable {p : Phrase} {e l r : Expr α} {ts us ls rs init rest rest' : List Token}
variable {op : Operator} {name lexeme : String}

/-! ## What may stand behind a phrase -/

/-- Whether tokens begin with `^`. -/
def BeginsPow (ts : List Token) : Prop := ∃ after, ts = .operator .pow :: after

theorem BeginsPow.behind (h : BeginsPow rest → BeginsPow rest') (ws : List Token)
    (hws : BeginsPow (ws ++ rest)) : BeginsPow (ws ++ rest') := by
  cases ws with
  | nil => exact h hws
  | cons w ws =>
    obtain ⟨after, heq⟩ := hws
    exact ⟨_, by rw [List.cons_append, (List.cons.inj heq).1]⟩

/-- An exponent that lies before `rest'` lies before `rest` as well, if `rest` begins with no `^`
that `rest'` does not begin with. -/
theorem Exponent.behind {negative : Bool} (hpow : BeginsPow rest → BeginsPow rest')
    (ws : List Token) (h : Exponent us negative lexeme (ws ++ rest')) :
    Exponent us negative lexeme (ws ++ rest) := by
  cases h with
  | positive hrest =>
    exact .positive fun after heq => (BeginsPow.behind hpow ws ⟨after, heq⟩).elim hrest
  | negative hrest =>
    exact .negative fun after heq => (BeginsPow.behind hpow ws ⟨after, heq⟩).elim hrest

/-- Whatever phrase `rest` may stand behind, `rest'` may stand there as well. -/
structure Admits (rest rest' : List Token) : Prop where
  var : ∀ name after, rest' = .var name :: after → ∃ name after, rest = .var name :: after
  pow : BeginsPow rest' → BeginsPow rest
  raises : ∀ ws, Raises (ws ++ rest') → Raises (ws ++ rest)

theorem Admits.append (h : Admits rest rest') (ws : List Token) :
    Admits (ws ++ rest) (ws ++ rest') where
  var name after heq := by
    cases ws with
    | nil => exact h.var name after heq
    | cons w ws => exact ⟨name, _, by rw [List.cons_append, (List.cons.inj heq).1]⟩
  pow := BeginsPow.behind h.pow ws
  raises vs hraises := by
    rw [← List.append_assoc] at hraises ⊢
    exact h.raises (vs ++ ws) hraises

/-- A phrase before `rest` is a phrase before all that `rest` admits. -/
theorem Derives.of_admits (h : Derives p ts e rest) (hadmits : Admits rest rest') :
    Derives p ts e rest' := by
  induction h generalizing rest' with
  | product _ ih => exact .product (ih hadmits)
  | @additive op ls l rs r rest hop _ _ ihl ihr =>
    exact .additive hop (ihl (hadmits.append (.operator op :: rs))) (ihr hadmits)
  | power _ ih => exact .power (ih hadmits)
  | @multiplicative op ls l rs r rest hop _ _ ihl ihr =>
    exact .multiplicative hop (ihl (hadmits.append (.operator op :: rs))) (ihr hadmits)
  | signed _ ih => exact .signed (ih hadmits)
  | @raised ls l rs r rest _ _ ihl ihr =>
    exact .raised (ihl (hadmits.append (.operator .pow :: rs))) (ihr hadmits)
  | primary _ ih => exact .primary (ih hadmits)
  | negated _ ih => exact .negated (ih hadmits)
  | number lexeme hrest =>
    refine .number lexeme fun name after heq => ?_
    obtain ⟨name', after', heq'⟩ := hadmits.var name after heq
    exact hrest name' after' heq'
  | constant c => exact .constant c
  | monomial _ ih => exact .monomial (ih hadmits)
  | parenthesized _ ih => exact .parenthesized (ih (hadmits.append [.rightParen]))
  | emptyCall name => exact .emptyCall name
  | closedCall _ ih => exact .closedCall (ih (hadmits.append [.rightParen]))
  | firstArgument name _ ih => exact .firstArgument name (ih hadmits)
  | @nextArgument name args ts us e rest _ _ ihl ihr =>
    exact .nextArgument (ihl (hadmits.append (.comma :: us))) (ihr hadmits)
  | «variable» hc hrest => exact .variable hc fun hraises => hrest (hadmits.raises [] hraises)
  | variablePower hc hexp => exact .variablePower hc (hexp.behind hadmits.pow [])

theorem Raises.beginsPow (h : Raises rest) : BeginsPow rest := by
  obtain ⟨us, negative, lexeme, after, hexp, rfl⟩ := h
  cases hexp <;> exact ⟨_, rfl⟩

/-- An operator may stand where another stood, or the end, if both are `^` or neither is. -/
theorem admits_operator (hpow : BeginsPow rest ↔ op = .pow)
    (hraises : Raises (.operator op :: ts) → Raises rest) :
    Admits rest (.operator op :: ts) where
  var name after heq := by cases heq
  pow h := by
    obtain ⟨after, heq⟩ := h
    cases heq
    exact hpow.mpr rfl
  raises ws h := by
    have hsame : BeginsPow rest → BeginsPow (.operator op :: ts) :=
      fun hrest => ⟨ts, by rw [hpow.mp hrest]⟩
    obtain ⟨us, negative, lexeme, after, hexp, heq⟩ := h
    -- an exponent holds no other operator, so it lies before this one or begins with it
    have hsplit : ws = [] ∨ ∃ vs, ws = us ++ vs ∧ after = vs ++ .operator op :: ts := by
      cases hexp with
      | positive =>
        rcases ws with _ | ⟨w, _ | ⟨w', ws⟩⟩
        · exact .inl rfl
        · cases heq
        · cases heq
          exact .inr ⟨ws, rfl, rfl⟩
      | negative =>
        rcases ws with _ | ⟨w, _ | ⟨w', _ | ⟨w'', ws⟩⟩⟩
        · exact .inl rfl
        · cases heq
        · cases heq
        · cases heq
          exact .inr ⟨ws, rfl, rfl⟩
    rcases hsplit with rfl | ⟨vs, rfl, rfl⟩
    · exact hraises ⟨us, negative, lexeme, after, hexp, heq⟩
    · exact ⟨us, negative, lexeme, _, hexp.behind hsame vs, List.append_assoc us vs rest⟩

theorem admits_of_ne_pow (hop : op ≠ .pow) (hrest : ∀ after, rest ≠ .operator .pow :: after)
    (ts : List Token) : Admits rest (.operator op :: ts) := by
  refine admits_operator ⟨fun ⟨after, h⟩ => absurd h (hrest after), fun h => absurd h hop⟩ ?_
  intro h
  obtain ⟨after, heq⟩ := h.beginsPow
  cases heq
  exact absurd rfl hop

/-! ## Sums that go on -/

/-- A sum takes a power behind an operator of a product. -/
theorem exists_sum_multiplicative (hop : op.Multiplies)
    (hl : Derives .sum ts l (.operator op :: (rs ++ rest))) (hr : Derives .power rs r rest) :
    ∃ e : Expr α, Derives .sum (ts ++ .operator op :: rs) e rest := by
  cases hl with
  | product hl => exact ⟨_, .product (.multiplicative hop hl hr)⟩
  | @additive op' ls l us r' _ hop' hleft hlast =>
    have hbehind : Derives .sum ls l (.operator op' :: (us ++ .operator op :: rs ++ rest)) := by
      simpa using hleft
    rw [List.append_assoc]
    exact ⟨_, .additive hop' hbehind (.multiplicative hop hlast hr)⟩

variable (α) in
/-- Behind the tokens `ls` every phrase of the kind `p` that begins with the token `t` completes a
sum. -/
def Completes (p : Phrase) (ls : List Token) (t : Token) : Prop :=
  ∀ (us rest : List Token) (r : Expr α), Derives p (t :: us) r rest →
    ∃ e : Expr α, Derives .sum (ls ++ t :: us) e rest

theorem Derives.exists_tail {t : Token} (h : Derives p ls e rest) (hts : t :: ts = ls ++ us) :
    ∃ tail, ls = t :: tail := by
  obtain ⟨t', tail, rfl, -⟩ := h.head
  exact ⟨tail, by rw [(List.cons.inj hts).1]⟩

theorem Completes.product {t : Token} (h : Completes α .power ls t) :
    Completes α .product ls t := by
  intro us rest r hr
  generalize hp : Phrase.product = p, hts : t :: us = ts at hr
  induction hr generalizing us with
  | power hr =>
    subst hts
    exact h us _ _ hr
  | multiplicative hop hl hr ih =>
    obtain ⟨tail, rfl⟩ := hl.exists_tail hts
    obtain ⟨e, he⟩ := ih tail hp rfl
    obtain ⟨e', hsum⟩ := exists_sum_multiplicative hop he hr
    exact ⟨e', by simpa using hsum⟩
  | _ => cases hp

theorem Completes.sum {t : Token} (h : Completes α .power ls t) : Completes α .sum ls t := by
  intro us rest r hr
  generalize hp : Phrase.sum = p, hts : t :: us = ts at hr
  induction hr generalizing us with
  | product hr =>
    subst hts
    exact h.product us _ _ hr
  | additive hop hl hr ih =>
    obtain ⟨tail, rfl⟩ := hl.exists_tail hts
    obtain ⟨e, he⟩ := ih tail hp rfl
    exact ⟨_, by simpa using Derives.additive hop he hr⟩
  | _ => cases hp

/-- A sum, `*` and a sum are a sum. -/
theorem exists_sum_mul (hl : Derives .sum ls l []) (hr : Derives .sum rs r rest) :
    ∃ e : Expr α, Derives .sum (ls ++ .operator .mul :: rs) e rest := by
  obtain ⟨t, us, rfl, -⟩ := hr.head
  have hpower : Completes α .power (ls ++ [.operator .mul]) t := by
    intro us rest r hr
    have hadmits : Admits [] (.operator .mul :: (t :: us ++ rest)) :=
      admits_of_ne_pow (by decide) (by simp) _
    obtain ⟨e, he⟩ := exists_sum_multiplicative .mul (hl.of_admits hadmits) hr
    exact ⟨e, by simpa using he⟩
  obtain ⟨e, he⟩ := hpower.sum us rest r hr
  exact ⟨e, by simpa using he⟩

/-! ## A number that becomes a coefficient -/

/-- Whether tokens end with an exponent and the variable that it belongs to. -/
def EndsRaised (ts : List Token) : Prop :=
  ∃ init name us negative lexeme, ts = init ++ .var name :: us ∧ Exponent us negative lexeme []

theorem EndsRaised.append (ls : List Token) (h : EndsRaised ts) : EndsRaised (ls ++ ts) := by
  obtain ⟨init, name, us, negative, lexeme, rfl, hexp⟩ := h
  exact ⟨ls ++ init, name, us, negative, lexeme, by simp, hexp⟩

theorem exists_of_append_eq_concat {t : Token} (hrs : rs ≠ []) (h : ls ++ rs = init ++ [t]) :
    ∃ last, rs = last ++ [t] ∧ init = ls ++ last := by
  obtain rfl | ⟨last, u, rfl⟩ := List.eq_nil_or_concat' rs
  · exact absurd rfl hrs
  · rw [← List.append_assoc] at h
    obtain ⟨rfl, hlast⟩ := List.append_inj' h rfl
    exact ⟨last, by rw [hlast], rfl⟩

theorem Derives.exists_init {t : Token} (h : Derives p rs r rest)
    (hts : ls ++ .operator op :: rs = init ++ [t]) :
    ∃ last, rs = last ++ [t] ∧ init = ls ++ .operator op :: last := by
  obtain ⟨u, us, rfl, -⟩ := h.head
  rw [List.append_cons] at hts
  obtain ⟨last, hlast, rfl⟩ := exists_of_append_eq_concat (List.cons_ne_nil u us) hts
  exact ⟨last, hlast, by simp⟩

/-- What goes on behind a number makes no exponent of what was none. -/
theorem raises_of_number (h : Raises (.operator op :: (init ++ .number lexeme :: ts))) :
    Raises (.operator op :: (init ++ [.number lexeme])) := by
  have hsame : BeginsPow [.number lexeme] → BeginsPow (.number lexeme :: ts) := by
    rintro ⟨after, heq⟩
    cases heq
  obtain ⟨us, negative, lexeme', after, hexp, heq⟩ := h
  cases hexp with
  | positive hafter =>
    rcases init with _ | ⟨t, init⟩
    · cases heq
      exact ⟨_, _, _, [], .positive (by simp), rfl⟩
    · cases heq
      exact ⟨_, _, _, _, (Exponent.positive hafter).behind hsame init, rfl⟩
  | negative hafter =>
    rcases init with _ | ⟨t, _ | ⟨t', init⟩⟩
    · cases heq
    · cases heq
      exact ⟨_, _, _, [], .negative (by simp), rfl⟩
    · cases heq
      exact ⟨_, _, _, _, (Exponent.negative hafter).behind hsame init, rfl⟩

theorem admits_number (op : Operator) (init us rest : List Token) (lexeme : String) :
    Admits (.operator op :: (init ++ [.number lexeme] ++ []))
      (.operator op :: (init ++ .number lexeme :: us ++ rest)) := by
  refine admits_operator ⟨fun ⟨after, h⟩ => ?_, fun h => ⟨_, by rw [h]⟩⟩ fun h => ?_
  · cases h
    rfl
  · rw [List.append_nil]
    exact raises_of_number (by simpa using h)

/-- A negation before a power belongs to its base. -/
theorem exists_power_negated (h : Derives .power ts e rest) :
    ∃ e : Expr α, Derives .power (.negation :: ts) e rest := by
  cases h with
  | signed h => exact ⟨_, .signed (.negated h)⟩
  | raised hl hr => exact ⟨_, .raised (.negated hl) hr⟩

/-- The kind of a phrase after its last primary has become a power. -/
def Phrase.grown : Phrase → Phrase
  | signed | primary | monomial => power
  | p => p

/-- A phrase that ends with a number goes on with what makes a power of the number, unless the
number is an exponent. -/
theorem exists_grown (hpower : Derives .power (.number lexeme :: us) r rest)
    (h : Derives p ts e rest') (hp : p ≠ .call) (hrest : rest' = [])
    (hts : ts = init ++ [.number lexeme]) (hraised : ¬ EndsRaised ts) :
    ∃ e : Expr α, Derives p.grown (init ++ .number lexeme :: us) e rest := by
  induction h generalizing init with
  | product _ ih =>
    obtain ⟨e, he⟩ := ih nofun hrest hts hraised
    exact ⟨e, .product he⟩
  | power _ ih =>
    obtain ⟨e, he⟩ := ih nofun hrest hts hraised
    exact ⟨e, .power he⟩
  | signed _ ih | primary _ ih | monomial _ ih => exact ih nofun hrest hts hraised
  | @additive op ls l rs r rest' hop hl hr _ ih =>
    subst hrest
    obtain ⟨last, rfl, rfl⟩ := hr.exists_init hts
    obtain ⟨e, he⟩ := ih nofun rfl rfl fun h => hraised ((h.append [_]).append ls)
    rw [List.append_assoc]
    exact ⟨_, .additive hop (hl.of_admits (admits_number _ last us rest lexeme)) he⟩
  | @multiplicative op ls l rs r rest' hop hl hr _ ih =>
    subst hrest
    obtain ⟨last, rfl, rfl⟩ := hr.exists_init hts
    obtain ⟨e, he⟩ := ih nofun rfl rfl fun h => hraised ((h.append [_]).append ls)
    rw [List.append_assoc]
    exact ⟨_, .multiplicative hop (hl.of_admits (admits_number _ last us rest lexeme)) he⟩
  | @raised ls l rs r rest' hl hr _ ih =>
    subst hrest
    obtain ⟨last, rfl, rfl⟩ := hr.exists_init hts
    obtain ⟨e, he⟩ := ih nofun rfl rfl fun h => hraised ((h.append [_]).append ls)
    rw [List.append_assoc]
    exact ⟨_, .raised (hl.of_admits (admits_number _ last us rest lexeme)) he⟩
  | @negated ts e rest' h ih =>
    cases init with
    | nil => cases hts
    | cons t init =>
      obtain ⟨rfl, htail⟩ := List.cons.inj hts
      obtain ⟨e, he⟩ := ih nofun hrest htail fun h => hraised (h.append [_])
      exact exists_power_negated he
  | number lexeme' =>
    have hsplit : [] ++ [Token.number lexeme'] = init ++ [.number lexeme] := hts
    obtain ⟨rfl, hlast⟩ := List.append_inj' hsplit rfl
    cases hlast
    exact ⟨_, hpower⟩
  | constant | parenthesized | emptyCall | closedCall =>
    have hlast := congrArg List.getLast? hts
    simp [List.getLast?_cons] at hlast
  | firstArgument | nextArgument => exact absurd rfl hp
  | «variable» =>
    obtain ⟨-, hlast⟩ := List.append_inj' hts rfl
    cases hlast
  | @variablePower cs c name us negative lexeme' rest' hc hexp =>
    subst hrest
    exact absurd ⟨cs, name, us, negative, lexeme', rfl, hexp⟩ hraised

/-- A number may stand before a phrase that begins with a variable, as its coefficient. -/
theorem exists_coefficient (lexeme : String) (h : Derives p ts e rest)
    (hts : .var name :: us = ts) :
    p ≠ .call ∧ ∃ e' : Expr α, Derives p (.number lexeme :: ts) e' rest := by
  induction h generalizing us with
  | product _ ih =>
    obtain ⟨-, e, he⟩ := ih hts
    exact ⟨nofun, e, .product he⟩
  | additive hop hl hr ih =>
    obtain ⟨tail, rfl⟩ := hl.exists_tail hts
    obtain ⟨-, e, he⟩ := ih rfl
    exact ⟨nofun, _, .additive hop he hr⟩
  | power _ ih =>
    obtain ⟨-, e, he⟩ := ih hts
    exact ⟨nofun, e, .power he⟩
  | multiplicative hop hl hr ih =>
    obtain ⟨tail, rfl⟩ := hl.exists_tail hts
    obtain ⟨-, e, he⟩ := ih rfl
    exact ⟨nofun, _, .multiplicative hop he hr⟩
  | signed _ ih =>
    obtain ⟨-, e, he⟩ := ih hts
    exact ⟨nofun, e, .signed he⟩
  | raised hl hr ih =>
    obtain ⟨tail, rfl⟩ := hl.exists_tail hts
    obtain ⟨-, e, he⟩ := ih rfl
    exact ⟨nofun, _, .raised he hr⟩
  | primary _ ih =>
    obtain ⟨-, e, he⟩ := ih hts
    exact ⟨nofun, e, .primary he⟩
  | monomial _ ih =>
    obtain ⟨-, e, he⟩ := ih hts
    exact ⟨nofun, e, .monomial he⟩
  | closedCall hcall ih | nextArgument hcall _ ih =>
    obtain ⟨tail, rfl⟩ := hcall.exists_tail hts
    exact absurd rfl (ih rfl).1
  | «variable» hc hrest =>
    cases hc with
    | one => exact ⟨nofun, _, .variable (.number lexeme) hrest⟩
    | number => cases hts
  | variablePower hc hexp =>
    cases hc with
    | one => exact ⟨nofun, _, .variablePower (.number lexeme) hexp⟩
    | number => cases hts
  | _ => cases hts

/-- A sum that ends with a number goes on with a variable, unless the number is an exponent. -/
theorem exists_sum_coefficient (hl : Derives .sum (init ++ [.number lexeme]) l [])
    (hraised : ¬ EndsRaised (init ++ [.number lexeme]))
    (hr : Derives .sum (.var name :: us) r rest) :
    ∃ e : Expr α, Derives .sum (init ++ .number lexeme :: .var name :: us) e rest := by
  have hpower : Completes α .power (init ++ [.number lexeme]) (.var name) := by
    intro us rest r hr
    obtain ⟨-, r', hr'⟩ := exists_coefficient lexeme hr rfl
    rw [List.append_assoc]
    exact exists_grown hr' hl nofun rfl rfl hraised
  obtain ⟨e, he⟩ := hpower.sum us rest r hr
  exact ⟨e, by simpa using he⟩

/-! ## A variable behind an exponent -/

namespace Reading

variable {s s' : Reading α}

theorem focus_of_var (h : step s (.var name) = .ok s') : ∃ c, s'.focus = .var c name := by
  obtain ⟨F, focus⟩ := s
  cases focus <;> cases h <;> exact ⟨_, rfl⟩

/-- Behind a variable and its exponent, the number of the exponent is held back. -/
theorem focus_of_endsRaised (hts : EndsRaised ts) (h : ts.foldlM step s = .ok s') :
    ∃ c name negative x, s'.focus = .exponent c name negative x := by
  obtain ⟨init, name, us, negative, lexeme, rfl, hexp⟩ := hts
  simp only [List.foldlM_append, List.foldlM_cons, except_bind_eq_ok] at h
  obtain ⟨before, -, after, hvar, h⟩ := h
  obtain ⟨c, hfocus⟩ := focus_of_var hvar
  obtain ⟨F, focus⟩ := after
  obtain rfl : focus = .var c name := hfocus
  cases hexp with
  | positive =>
    cases h
    exact ⟨_, _, _, _, rfl⟩
  | negative =>
    cases h
    exact ⟨_, _, _, _, rfl⟩

end Reading

/-- Behind a variable with an exponent another variable is refused. -/
theorem Expr.ofTokens_refused (hts : EndsRaised ts) (h : Expr.ofTokens (α := α) ts = .ok e)
    (name : String) (us : List Token) :
    Expr.ofTokens (α := α) (ts ++ .var name :: us) = .error (.invalidOperator name) := by
  obtain ⟨⟨F, focus⟩, hrun, -⟩ := except_bind_eq_ok.mp h
  obtain ⟨c, base, negative, x, rfl⟩ := focus_of_endsRaised hts hrun
  unfold Expr.ofTokens
  rw [List.foldlM_append, hrun]
  rfl

/-! ## Texts side by side -/

theorem EndsRaised.number {t : Token} (h : EndsRaised (init ++ [t])) :
    ∃ lexeme, t = .number lexeme := by
  obtain ⟨ls, name, us, negative, lexeme, hts, hexp⟩ := h
  have hlast := congrArg List.getLast? hts
  refine ⟨lexeme, ?_⟩
  cases hexp <;> simpa using hlast

/-- The one place between an operand and a word where no product is meant. -/
theorem Token.number_var_of_not_multiplies {t u : Token} (ht : t.EndsOperand)
    (hu : u.isWord = true) (h : t.multiplies u = false) :
    (∃ lexeme, t = .number lexeme) ∧ ∃ name, u = .var name := by
  cases t <;> cases u <;>
    first
    | exact ⟨⟨_, rfl⟩, _, rfl⟩
    | cases ht; done
    | cases hu; done
    | cases h

/-- Two texts can stand side by side, where a product is meant, unless the first ends with a
variable and its exponent and the second begins with a variable. Then that one is refused. -/
theorem Expr.ofText_juxtaposed {A B : String} {a b : Expr α} {init us : List Token} {t u : Token}
    (hA : Expr.ofText A = .ok a) (hB : Expr.ofText B = .ok b)
    (hAequals : '=' ∉ A.toList) (hBequals : '=' ∉ B.toList)
    (hAts : Token.ofText A = .ok (init ++ [t])) (hBts : Token.ofText B = .ok (u :: us))
    (ht : t.EndsOperand) (hu : u.isWord = true) :
    (EndsRaised (init ++ [t]) → ∀ name, u = .var name →
        Expr.ofText (α := α) (A ++ " " ++ B) = .error (.invalidOperator name)) ∧
      ((EndsRaised (init ++ [t]) → ∀ name, u ≠ .var name) →
        ∃ c : Expr α, Expr.ofText (A ++ " " ++ B) = .ok c) := by
  have hnotA := Token.equals_not_mem_of_ofText hAts hAequals
  have hnotB := Token.equals_not_mem_of_ofText hBts hBequals
  have hderivesA := derives_of_ofText hAts hnotA hA
  have hderivesB := derives_of_ofText hBts hnotB hB
  have hts := Token.ofText_append_blank hAts hBts hu
  constructor
  · rintro hraised name rfl
    obtain ⟨lexeme, rfl⟩ := hraised.number
    have hequals : Token.equalsSign ∉ init ++ [.number lexeme] ++ .var name :: us :=
      List.not_mem_append hnotA hnotB
    rw [ofText_eq_ofTokens hts hequals]
    exact ofTokens_refused hraised (ofTokens_of_derives hderivesA) name us
  · intro hfree
    by_cases hmul : t.multiplies u = true
    · rw [if_pos hmul] at hts
      obtain ⟨c, hc⟩ := exists_sum_mul hderivesA hderivesB
      exact ⟨c, ofText_of_derives hts hc⟩
    · rw [if_neg hmul, List.append_assoc] at hts
      obtain ⟨⟨lexeme, rfl⟩, name, rfl⟩ :=
        Token.number_var_of_not_multiplies ht hu (Bool.eq_false_iff.mpr hmul)
      have hraised : ¬ EndsRaised (init ++ [.number lexeme]) := fun h => hfree h name rfl
      obtain ⟨c, hc⟩ := exists_sum_coefficient hderivesA hraised hderivesB
      exact ⟨c, ofText_of_derives hts hc⟩

/-- Behind `x^2` a variable is refused, and behind `2^3` it is not. -/
theorem Expr.ofText_juxtaposed_power :
    Expr.ofText (α := Float) ("x^2" ++ " " ++ "y") = .error (.invalidOperator "y") ∧
      ∃ c : Expr Float, Expr.ofText ("2^3" ++ " " ++ "y-1") = .ok c := by
  have hsquare : Expr.ofText "x^2" = .ok (.monomial ⟨1.0, "x", 2.0⟩ : Expr Float) :=
    eq_ok_of_agrees (by decide +kernel)
  have hcube : Expr.ofText "2^3" = .ok (.binary .pow (.number 2.0) (.number 3.0) : Expr Float) :=
    eq_ok_of_agrees (by decide +kernel)
  have hy : Expr.ofText "y" = .ok (.monomial ⟨1.0, "y", 1.0⟩ : Expr Float) :=
    eq_ok_of_agrees (by decide +kernel)
  have hdifference : Expr.ofText "y-1" =
      .ok (.binary .sub (.monomial ⟨1.0, "y", 1.0⟩) (.number 1.0) : Expr Float) :=
    eq_ok_of_agrees (by decide +kernel)
  have hsquareTokens :
      Token.ofText "x^2" = .ok ([.var "x", .operator .pow] ++ [.number "2"]) := by decide +kernel
  have hcubeTokens :
      Token.ofText "2^3" = .ok ([.number "2", .operator .pow] ++ [.number "3"]) := by decide +kernel
  have hyTokens : Token.ofText "y" = .ok [.var "y"] := by decide +kernel
  have hdifferenceTokens :
      Token.ofText "y-1" = .ok [.var "y", .operator .sub, .number "1"] := by decide +kernel
  have hraised : EndsRaised ([.var "x", .operator .pow] ++ [.number "2"]) :=
    ⟨[], "x", _, false, "2", rfl, .positive nofun⟩
  have hplain : ¬ EndsRaised ([.number "2", .operator .pow] ++ [.number "3"]) := by
    rintro ⟨init, name, us, negative, lexeme, hts, -⟩
    have hmem : Token.var name ∈ init ++ .var name :: us := by simp
    rw [← hts] at hmem
    simp at hmem
  constructor
  · exact (ofText_juxtaposed hsquare hy (by decide) (by decide) hsquareTokens hyTokens
      (.number "2") rfl).1 hraised "y" rfl
  · exact (ofText_juxtaposed hcube hdifference (by decide) (by decide) hcubeTokens hdifferenceTokens
      (.number "3") rfl).2 fun h => absurd h hplain

end SymbolicAlgebra
