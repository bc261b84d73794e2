import SymbolicAlgebra.Expr.Canonical
import SymbolicAlgebra.Proofs.Decimal.Literal
import SymbolicAlgebra.Proofs.Expr.Subtree

/-!
# The tokens of a canonical form

In a canonical form an operand begins where one is expected, behind a sign or at
the front, and ends before a closing parenthesis, a comma or an operator. So it
is read alike in every place, and no product is meant between its tokens.

Results:
* `reads_canonical`: the canonical form of a readable tree is read as its tokens in
  every place.
* `written_spelling`: between its tokens no product is meant.
* `ofText_canonical`: its tokens are `spelling`.
-/
namespace SymbolicAlgebra

open Text Binary64

/-! ## Readable trees -/

namespace Token

/-- A single letter that names no constant. -/
def IsVariable (name : String) : Prop :=
  ∃ c, name.toList = [c] ∧ isLetter c = true ∧ NamedConstant.ofName? name = none

/-- A word that names a function before a parenthesis. -/
def IsFunctionName (name : String) : Prop :=
  ∃ c cs, name.toList = c :: cs ∧ startsWord c = true ∧ (∀ d ∈ cs, continuesWord d = true) ∧
    ofWord (c :: cs) ['('] = .ok (function name)

end Token

/-- A plain double whose text reads back as the same double. -/
structure Binary64.ReadsBack (x : Float) : Prop extends Plain x where
  same : Scalar.same (literalValue (Numeral.text x)) x = true

namespace Expr

/-- The absolute value of an exponent, as it is written. -/
def magnitude (x : Float) : Float := if 0.0 ≤ x then x else -x

/-- What a node must meet for a canonical form to read back: its numbers are plain, a constant has
the value of its name, names are what they look like, and no monomial is the base of a power. -/
def ReadableNode : Expr Float → Prop
  | .number x => ReadsBack x
  | .negate _ => True
  | .binary op l _ => op ≠ .equals ∧ (op = .pow → l.isMonomial = false)
  | .call name _ => Token.IsFunctionName name
  | .monomial m =>
    ReadsBack m.coefficient ∧ Token.IsVariable m.var ∧ ReadsBack (magnitude m.exponent)
  | .constant name x => ∃ c : NamedConstant, name = c.name ∧ x = c.value

/-- Every node of a tree is readable. -/
def Readable (t : Expr Float) : Prop := ∀ s ∈ t.subtrees, ReadableNode s

/-! ## Tokens -/

/-- The tokens of an exponent. -/
def exponentTokens (x : Float) : List Token :=
  if 0.0 ≤ x then [.number (Numeral.text x)] else [.negation, .number (Numeral.text (-x))]

mutual

/-- The tokens of a canonical form. -/
def spelling : Expr Float → List Token
  | .number x => [.number (Numeral.text x)]
  | .negate e => .negation :: .leftParen :: (spelling e ++ [.rightParen])
  | .binary op l r =>
    .leftParen :: (spelling l ++ .operator op :: (spelling r ++ [.rightParen]))
  | .call name [] => [.function name, .leftParen, .rightParen]
  | .call name (e :: es) =>
    .function name :: .leftParen :: (spelling e ++ (spellings es ++ [.rightParen]))
  | .monomial m =>
    .number (Numeral.text m.coefficient) :: .var m.var :: .operator .pow :: .leftParen ::
      (exponentTokens m.exponent ++ [.rightParen])
  | .constant name _ => (NamedConstant.ofName? name).toList.map .constant

/-- The tokens of further arguments, each behind a comma. -/
def spellings : List (Expr Float) → List Token
  | [] => []
  | e :: es => .comma :: (spelling e ++ spellings es)

end

end Expr

/-! ## Reading a canonical form -/

namespace Token

variable {previous last : Option Token} {c : Char} {cs ds rest : List Char} {t : Token}
variable {ts us : List Token}

/-- Behind `previous` the characters `cs`, which `rest` follows, are the tokens `ts`, and `rest`
stands behind `last`. -/
def Scans (previous : Option Token) (cs rest : List Char) (ts : List Token)
    (last : Option Token) : Prop :=
  scan previous (cs ++ rest) = (scan last rest).map (ts ++ ·)

theorem Scans.nil : Scans last [] rest [] last := by
  show scan last rest = _
  cases scan last rest <;> rfl

theorem Scans.append {middle : Option Token} (h : Scans previous cs (ds ++ rest) ts middle)
    (h' : Scans middle ds rest us last) : Scans previous (cs ++ ds) rest (ts ++ us) last := by
  unfold Scans at *
  rw [List.append_assoc, h, h']
  cases scan last rest with
  | error e => rfl
  | ok vs => exact congrArg Except.ok (List.append_assoc ts us vs).symm

theorem Scans.token {middle : Option Token} (h : Scans previous cs (ds ++ rest) [t] middle)
    (h' : Scans middle ds rest ts last) : Scans previous (cs ++ ds) rest (t :: ts) last :=
  h.append h'

theorem Scans.sign (hc : ofSign? previous c = some t) (h : Scans (some t) cs rest ts last) :
    Scans previous (c :: cs) rest (t :: ts) last := by
  have hone : Scans previous [c] (cs ++ rest) [t] (some t) := scan_sign hc
  exact hone.token h

theorem Scans.blank (hc : isBlank c = true) (h : Scans previous cs rest ts last) :
    Scans previous (c :: cs) rest ts last :=
  (scan_blank hc).trans h

/-- The signs that can follow an operand of a canonical form. -/
def closers : List Char := [')', ',', '+', '-', '*', '/', '%', '^']

/-- An operand ends here. -/
def Closes (rest : List Char) : Prop := ∀ c after, rest = c :: after → c ∈ closers

theorem closes_cons (h : c ∈ closers) : Closes (c :: rest) := by
  intro d after hd
  cases hd
  exact h

theorem Closes.stops {p : Char → Bool} (h : Closes rest) (hp : closers.all (!p ·) = true) :
    Stops p rest := by
  intro c after hc
  simpa using List.all_eq_true.mp hp c (h c after hc)

theorem scans_literal {s : String} (hs : IsLiteral s.toList)
    (hrest : Stops (fun d => d.isDigit || d == '.') rest) :
    Scans previous s.toList rest [.number s] (some (.number s)) := by
  have hscan := @scan_literal previous _ _ hs hrest
  rwa [String.ofList_toList] at hscan

theorem scans_word {name : String} (hname : name.toList = c :: cs) (hc : startsWord c = true)
    (hcs : ∀ d ∈ cs, continuesWord d = true) (hrest : Stops continuesWord rest)
    (hword : ofWord (c :: cs) rest = .ok t) :
    Scans previous name.toList rest [t] (some t) := by
  have htake := takeWhile_append_of_stops hcs hrest
  have hdrop := dropWhile_append_of_stops hcs hrest
  rw [Scans, hname, List.cons_append, scan_word hc (by rwa [htake, hdrop]), hdrop]
  rfl

theorem scans_variable {name : String} (hname : IsVariable name)
    (hrest : Stops continuesWord rest) :
    Scans previous name.toList rest [.var name] (some (.var name)) := by
  obtain ⟨c, hc, hletter, hnone⟩ := hname
  have hlist : String.ofList [c] = name := by rw [← hc, String.ofList_toList]
  refine scans_word hc (by simp [startsWord, hletter]) (by simp) hrest ?_
  simp [ofWord, hlist, hnone, hletter]

/-- A literal does not go on with a variable. -/
theorem stops_variable {name : String} (hname : IsVariable name) :
    Stops (fun d => d.isDigit || d == '.') (name.toList ++ cs) := by
  obtain ⟨d, hd, hletter, -⟩ := hname
  have hdigit : d.isDigit = false := isDigit_of_startsWord (by simp [startsWord, hletter])
  have hpoint : d ≠ '.' := by
    rintro rfl
    revert hletter
    decide
  rw [hd]
  exact stops_cons (by simp [hdigit, hpoint])

theorem scans_functionName {name : String} (hname : IsFunctionName name) :
    Scans previous name.toList ('(' :: rest) [.function name] (some (.function name)) := by
  obtain ⟨c, cs, hlist, hc, hcs, hword⟩ := hname
  exact scans_word hlist hc hcs (stops_cons (by decide)) hword

theorem scans_constant (k : NamedConstant) (hrest : Closes rest) :
    Scans previous k.name.toList rest [.constant k] (some (.constant k)) := by
  obtain ⟨c, cs, hname, hc, hcs⟩ : ∃ c cs, k.name.toList = c :: cs ∧ startsWord c = true ∧
      ∀ d ∈ cs, continuesWord d = true := by
    cases k <;> exact ⟨_, _, rfl, by decide, List.all_eq_true.mp (by decide)⟩
  refine scans_word hname hc hcs (hrest.stops (by decide)) ?_
  have hlist : String.ofList (c :: cs) = k.name := by rw [← hname, String.ofList_toList]
  have hopen : opensCall rest = false := by
    cases rest with
    | nil => rfl
    | cons d after =>
      have hd := hrest d after rfl
      have hblank := (hrest.stops (p := isBlank) (by decide)) d after rfl
      have hparen := (hrest.stops (p := (· == '(')) (by decide)) d after rfl
      simpa [opensCall, hblank] using hparen
  simp [ofWord, hlist, NamedConstant.ofName?_name, hopen]

/-- An operator between two operands. -/
theorem exists_sign {op : Operator} (hop : op ≠ .equals) :
    ∃ c, op.symbol.toList = [c] ∧ c ∈ closers ∧ ∀ previous, expectsOperand previous = false →
      ofSign? previous c = some (.operator op) := by
  cases op with
  | equals => exact absurd rfl hop
  | sub => exact ⟨'-', rfl, by decide, fun previous h => by rw [ofSign?, h]; rfl⟩
  | _ => exact ⟨_, rfl, by decide, fun _ _ => rfl⟩

/-! ## Whole trees -/

open SymbolicAlgebra.Expr

/-- The characters of further arguments, each behind a comma and a blank. -/
def argumentChars (es : List (Expr Float)) : List Char :=
  es.flatMap fun e => ',' :: ' ' :: e.canonical.toList

theorem closes_argumentChars (es : List (Expr Float)) (hrest : Closes rest) :
    Closes (argumentChars es ++ rest) := by
  cases es with
  | nil => exact hrest
  | cons e es => exact closes_cons (by decide)

/-- A list of texts, parted by commas. -/
theorem toList_intercalate_comma (s : String) (ss : List String) :
    (", ".intercalate (s :: ss)).toList =
      s.toList ++ ss.flatMap fun t => ',' :: ' ' :: t.toList := by
  rw [String.toList_intercalate]
  induction ss generalizing s with
  | nil => simp [List.intercalate]
  | cons t ss ih =>
    rw [List.map_cons, List.map_cons, List.intercalate_cons_cons, ← List.map_cons, ih t]
    simp

theorem toList_intercalate_canonical (e : Expr Float) (es : List (Expr Float)) :
    (", ".intercalate (canonicalAll (e :: es))).toList =
      e.canonical.toList ++ argumentChars es := by
  rw [canonicalAll_eq_map, List.map_cons, toList_intercalate_comma, List.flatMap_map]
  rfl

variable {e : Expr Float} {es : List (Expr Float)}

/-- The text of a tree is read as its tokens, wherever an operand is expected and ends. -/
def Reads (e : Expr Float) : Prop :=
  ∀ previous rest, expectsOperand previous = true → Closes rest →
    ∃ last, expectsOperand last = false ∧
      Scans previous e.canonical.toList rest (spelling e) last

theorem reads_arguments (h : ∀ e ∈ es, Reads e) (hlast : expectsOperand last = false)
    (hrest : Closes rest) : ∃ last', expectsOperand last' = false ∧
      Scans last (argumentChars es) rest (spellings es) last' := by
  induction es generalizing last with
  | nil => exact ⟨last, hlast, .nil⟩
  | cons e es ih =>
    rw [List.forall_mem_cons] at h
    obtain ⟨middle, hmiddle, hfirst⟩ :=
      h.1 (some .comma) (argumentChars es ++ rest) rfl (closes_argumentChars es hrest)
    obtain ⟨last', hlast', hothers⟩ := ih h.2 hmiddle
    exact ⟨last', hlast', .sign rfl (.blank (by decide) (hfirst.append hothers))⟩

theorem reads_number {x : Float} (hx : ReadsBack x) : Reads (.number x) := by
  intro previous rest _ hrest
  exact ⟨_, rfl, scans_literal (isLiteral_text hx.toPlain) (hrest.stops (by decide))⟩

theorem reads_negate (h : Reads e) : Reads (.negate e) := by
  intro previous rest hprevious _
  obtain ⟨last, -, hinner⟩ := h (some .leftParen) (')' :: rest) rfl (closes_cons (by decide))
  have hminus : ofSign? previous '-' = some .negation := by rw [ofSign?, hprevious]; rfl
  have hchars : (Expr.negate e).canonical.toList = '-' :: '(' :: (e.canonical.toList ++ [')']) := by
    simp [canonical]
  rw [hchars]
  exact ⟨some .rightParen, rfl, .sign hminus (.sign rfl (hinner.append (.sign rfl .nil)))⟩

theorem reads_binary {op : Operator} {l r : Expr Float} (hop : op ≠ .equals) (hl : Reads l)
    (hr : Reads r) : Reads (.binary op l r) := by
  intro previous rest _ _
  obtain ⟨c, hc, hclose, hsign⟩ := exists_sign hop
  obtain ⟨middle, hmiddle, hleft⟩ := hl (some .leftParen)
    (c :: (r.canonical.toList ++ ')' :: rest)) rfl (closes_cons hclose)
  have hoperator : expectsOperand (some (.operator op)) = true := rfl
  obtain ⟨last, -, hright⟩ := hr (some (.operator op)) (')' :: rest) hoperator
    (closes_cons (by decide))
  have hchars : (Expr.binary op l r).canonical.toList =
      '(' :: (l.canonical.toList ++ c :: (r.canonical.toList ++ [')'])) := by
    simp [canonical, hc]
  rw [hchars]
  refine ⟨some .rightParen, rfl, .sign rfl (Scans.append ?_
    (.sign (hsign middle hmiddle) (hright.append (.sign rfl .nil))))⟩
  simpa using hleft

theorem reads_call {name : String} (hname : IsFunctionName name) (h : ∀ e ∈ es, Reads e) :
    Reads (.call name es) := by
  intro previous rest _ _
  cases es with
  | nil =>
    have hchars : (Expr.call name [] : Expr Float).canonical.toList =
        name.toList ++ ['(', ')'] := by
      simp [canonical, canonicalAll, String.intercalate]
    rw [hchars]
    exact ⟨some .rightParen, rfl,
      (scans_functionName hname).token (.sign rfl (.sign rfl .nil))⟩
  | cons e es =>
    rw [List.forall_mem_cons] at h
    have hparen : Closes (')' :: rest) := closes_cons (by decide)
    obtain ⟨middle, hmiddle, hfirst⟩ := h.1 (some .leftParen) (argumentChars es ++ ')' :: rest) rfl
      (closes_argumentChars es hparen)
    obtain ⟨last, -, hothers⟩ := reads_arguments h.2 hmiddle hparen
    have hchars : (Expr.call name (e :: es)).canonical.toList =
        name.toList ++ '(' :: (e.canonical.toList ++ (argumentChars es ++ [')'])) := by
      rw [canonical, String.toList_append, String.toList_append, String.toList_append,
        toList_intercalate_canonical]
      simp
    rw [hchars]
    refine ⟨some .rightParen, rfl, (scans_functionName hname).token (.sign rfl
      (Scans.append ?_ (Scans.append hothers (.sign rfl .nil))))⟩
    simpa using hfirst

theorem scans_exponent {x : Float} (hx : ReadsBack (magnitude x)) :
    Scans (some .leftParen) ((Numeral.text x).toList ++ [')']) rest
      (exponentTokens x ++ [.rightParen]) (some .rightParen) := by
  have hstops : Stops (fun d => d.isDigit || d == '.') ([')'] ++ rest) := stops_cons (by decide)
  unfold magnitude at hx
  unfold exponentTokens
  by_cases hsign : 0.0 ≤ x
  · rw [if_pos hsign] at hx ⊢
    exact (scans_literal (isLiteral_text hx.toPlain) hstops).append (.sign rfl .nil)
  · rw [if_neg hsign] at hx ⊢
    have hneg : Numeral.text x = "-" ++ Numeral.text (-x) := text_neg hsign hx.finite
    have htext : (Numeral.text x).toList = '-' :: (Numeral.text (-x)).toList := by
      rw [hneg, String.toList_append]
      rfl
    rw [htext]
    exact .sign rfl ((scans_literal (isLiteral_text hx.toPlain) hstops).append (.sign rfl .nil))

theorem reads_monomial {m : Monomial Float} (hc : ReadsBack m.coefficient)
    (hname : IsVariable m.var) (hx : ReadsBack (magnitude m.exponent)) :
    Reads (.monomial m) := by
  intro previous rest _ _
  have hchars : (Expr.monomial m).canonical.toList = (Numeral.text m.coefficient).toList ++
      (m.var.toList ++ '^' :: '(' :: ((Numeral.text m.exponent).toList ++ [')'])) := by
    simp [canonical, Monomial.canonical]
  have hcoefficient : Stops (fun d => d.isDigit || d == '.')
      (m.var.toList ++ '^' :: '(' :: ((Numeral.text m.exponent).toList ++ [')']) ++ rest) := by
    rw [List.append_assoc]
    exact stops_variable hname
  rw [hchars]
  exact ⟨some .rightParen, rfl, (scans_literal (isLiteral_text hc.toPlain) hcoefficient).token
    ((scans_variable hname (stops_cons (by decide))).token
      (.sign rfl (.sign rfl (scans_exponent hx))))⟩

/-- The text of a readable tree is read as its tokens. -/
theorem reads_canonical (h : Readable e) : Reads e := by
  induction e with
  | number x => exact reads_number (forall_subtrees_number.mp h)
  | negate e ih => exact reads_negate (ih (forall_subtrees_negate.mp h).2)
  | binary op l r ihl ihr =>
    obtain ⟨⟨hop, -⟩, hl, hr⟩ := forall_subtrees_binary.mp h
    exact reads_binary hop (ihl hl) (ihr hr)
  | call name args ih =>
    obtain ⟨hname, hargs⟩ := forall_subtrees_call.mp h
    exact reads_call hname fun a ha => ih a ha (hargs a ha)
  | monomial m =>
    obtain ⟨hc, hname, hx⟩ := forall_subtrees_monomial.mp h
    exact reads_monomial hc hname hx
  | constant name x =>
    obtain ⟨k, rfl, rfl⟩ := forall_subtrees_constant.mp h
    intro previous rest _ hrest
    refine ⟨some (.constant k), rfl, ?_⟩
    have hspelling : spelling (.constant k.name k.value) = [.constant k] := by
      simp [spelling, NamedConstant.ofName?_name]
    rw [hspelling]
    exact scans_constant k hrest

/-! ## No product is meant -/

/-- Between the tokens no product is meant. -/
def Written (ts : List Token) : Prop := ts.IsChain fun left right => left.multiplies right = false

theorem multiplies_of_endsOperand {left right : Token} (h : left.endsOperand = false) :
    left.multiplies right = false := by
  cases left <;> first | cases h; done | rfl

theorem multiplies_of_startsOperand {left right : Token} (h : right.startsOperand = false) :
    left.multiplies right = false := by
  cases right <;> first | cases h; done | (cases left <;> rfl)

theorem Written.cons (h : Written ts) (ht : t.endsOperand = false) : Written (t :: ts) :=
  List.isChain_cons.mpr ⟨fun _ _ => multiplies_of_endsOperand ht, h⟩

theorem Written.append (h : Written ts) (h' : Written (t :: us)) (ht : t.startsOperand = false) :
    Written (ts ++ t :: us) := by
  refine List.isChain_append.mpr ⟨h, h', fun _ _ y hy => ?_⟩
  cases hy
  exact multiplies_of_startsOperand ht

theorem Written.close (h : Written ts) : Written (ts ++ [.rightParen]) :=
  h.append (List.isChain_singleton _) rfl

theorem written_arguments (hts : Written ts) (h : ∀ e ∈ es, Written (spelling e)) :
    Written (ts ++ (spellings es ++ [.rightParen])) := by
  induction es generalizing ts with
  | nil => exact hts.close
  | cons e es ih =>
    rw [List.forall_mem_cons] at h
    have hothers := ih h.1 h.2
    rw [← List.append_assoc] at hothers
    exact hts.append (hothers.cons rfl) rfl

/-- No product is meant between the tokens of a tree. -/
theorem written_spelling (e : Expr Float) : Written (spelling e) := by
  induction e with
  | number x => exact List.isChain_singleton _
  | negate e ih => exact (ih.close.cons rfl).cons rfl
  | binary op l r ihl ihr => exact (ihl.append (ihr.close.cons rfl) rfl).cons rfl
  | call name args ih =>
    cases args with
    | nil => simp [spelling, Written, multiplies, endsOperand, startsOperand]
    | cons e es =>
      rw [List.forall_mem_cons] at ih
      exact ((written_arguments ih.1 ih.2).cons rfl).cons rfl
  | monomial m =>
    have hexponent : Written (exponentTokens m.exponent) := by
      unfold exponentTokens
      split <;> simp [Written, multiplies, endsOperand]
    have hpower : Written (.operator .pow :: .leftParen ::
        (exponentTokens m.exponent ++ [.rightParen])) := (hexponent.close.cons rfl).cons rfl
    exact List.isChain_cons_cons.mpr ⟨rfl, List.isChain_cons_cons.mpr ⟨rfl, hpower⟩⟩
  | constant name x => cases h : NamedConstant.ofName? name <;> simp [spelling, h, Written]

/-- The tokens of a canonical form. -/
theorem ofText_canonical (h : Readable e) : Token.ofText e.canonical = .ok (spelling e) := by
  obtain ⟨last, -, hscan⟩ := reads_canonical h none [] rfl fun _ _ hnil => nomatch hnil
  have hscan : scan none e.canonical.toList = .ok (spelling e) := by
    rw [Scans, List.append_nil, scan_nil] at hscan
    rw [hscan]
    exact congrArg Except.ok (List.append_nil _)
  rw [Token.ofText, hscan]
  exact congrArg Except.ok (withProducts_of_isChain (written_spelling e))

end Token
end SymbolicAlgebra
