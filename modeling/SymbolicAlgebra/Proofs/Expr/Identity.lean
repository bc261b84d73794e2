import SymbolicAlgebra.Proofs.Decimal.Figures
import SymbolicAlgebra.Proofs.Token.Canonical

/-!
# Canonical forms determine trees

The first characters of a canonical form tell what kind of node it is of: an
operation opens a parenthesis, a negation has one behind its sign, a call has one
behind its name, and the names of constants are known. Numbers and monomials
begin alike, with the text of a number, and what follows that text tells them
apart. So a canonical form can be told from any text that an operand can stand
before, and two trees with one canonical form are the same.

Results:
* `shape?_canonical`: the first characters tell the kind of a node.
* `canonical_append_inj`: a canonical form is told from what follows it.
* `same_of_canonical`: trees with one canonical form are the same.
-/
namespace SymbolicAlgebra

open Text Binary64 Token

/-! ## Names -/

namespace Token

/-- Whether a character is no sign. -/
def plain (c : Char) : Bool := !signs.contains c

theorem plain_of_continuesWord {c : Char} (h : continuesWord c = true) : plain c = true := by
  have hsigns : signs.all (!continuesWord ·) = true := by decide
  by_cases hsign : c ∈ signs
  · have hnot := List.all_eq_true.mp hsigns c hsign
    rw [h] at hnot
    cases hnot
  · simp [plain, hsign]

/-- A name of a function: it has a character, no signs, and does not begin like a literal. -/
def IsName (name : String) : Prop :=
  ∃ c cs, name.toList = c :: cs ∧ c.isDigit = false ∧ ∀ d ∈ c :: cs, plain d = true

/-- Every word is a name. -/
theorem isName_of_word {name : String} {c : Char} {cs : List Char} (h : name.toList = c :: cs)
    (hc : startsWord c = true) (hcs : ∀ d ∈ cs, continuesWord d = true) : IsName name :=
  ⟨c, cs, h, isDigit_of_startsWord hc, List.forall_mem_cons.mpr
    ⟨plain_of_continuesWord (continuesWord_of_startsWord hc),
      fun d hd => plain_of_continuesWord (hcs d hd)⟩⟩

theorem isName_constant (k : NamedConstant) : IsName k.name := by
  cases k <;> exact ⟨_, _, rfl, rfl, List.all_eq_true.mp (by decide)⟩

/-- A variable is one plain character that goes on with no literal. -/
theorem plain_of_isVariable {name : String} (h : IsVariable name) :
    ∃ c, name.toList = [c] ∧ plain c = true ∧ (c.isDigit || c == '.') = false := by
  obtain ⟨c, hc, hletter, -⟩ := h
  have hstarts : startsWord c = true := by simp [startsWord, hletter]
  refine ⟨c, hc, plain_of_continuesWord (continuesWord_of_startsWord hstarts), ?_⟩
  have hpoint : c ≠ '.' := by
    rintro rfl
    revert hletter
    decide
  simp [isDigit_of_startsWord hstarts, hpoint]

end Token

namespace Expr

/-- What the names in a node must be: a function has a name, a variable is a single letter that
names no constant, and a constant has the value of its name. Numbers and operators are arbitrary. -/
def NamedNode : Expr Float → Prop
  | .call name _ => Token.IsName name
  | .monomial m => Token.IsVariable m.var
  | .constant name x => ∃ c : NamedConstant, name = c.name ∧ x = c.value
  | .number _ | .negate _ | .binary _ _ _ => True

/-- Every node of a tree is well named. -/
def WellNamed (t : Expr Float) : Prop := ∀ s ∈ t.subtrees, NamedNode s

/-! ## The kinds of nodes -/

/-- What the first characters of a canonical form tell. -/
inductive Shape
  | operation
  | negation
  | call
  | constant
  | numeral
deriving DecidableEq

/-- The shape of the canonical form of a tree. -/
def shape : Expr Float → Shape
  | .binary _ _ _ => .operation
  | .negate _ => .negation
  | .call _ _ => .call
  | .constant _ _ => .constant
  | .number _ | .monomial _ => .numeral

/-- The shape of the canonical form that a text begins with. -/
def shape? : List Char → Option Shape
  | [] => none
  | '(' :: _ => some .operation
  | '-' :: '(' :: _ => some .negation
  | c :: cs =>
    if c = '-' ∨ c.isDigit then some .numeral
    else if plain c = false then none
    else if (cs.dropWhile plain).head? = some '(' then some .call
    else if (NamedConstant.ofName? (String.ofList (c :: cs.takeWhile plain))).isSome then
      some .constant
    else some .numeral

/-- A text that an operand can stand before. -/
def Delimited (rest : List Char) : Prop := ∀ c after, rest = c :: after → c ∈ signs ∧ c ≠ '('

theorem delimited_cons {c : Char} {rest : List Char} (h : c ∈ signs) (hc : c ≠ '(') :
    Delimited (c :: rest) := by
  intro d after hd
  cases hd
  exact ⟨h, hc⟩

theorem delimited_nil : Delimited [] := fun _ _ h => nomatch h

theorem stops_plain {rest : List Char} (h : Delimited rest) : Stops plain rest := by
  intro c after hrest
  simp [plain, (h c after hrest).1]

/-! ## Reading the shape -/

/-- A text that begins with neither an operation nor a negation. -/
theorem shape?_cons {c : Char} {cs : List Char} (hparen : c ≠ '(')
    (hnegation : c = '-' → cs.head? ≠ some '(') :
    shape? (c :: cs) =
      if c = '-' ∨ c.isDigit then some .numeral
      else if plain c = false then none
      else if (cs.dropWhile plain).head? = some '(' then some .call
      else if (NamedConstant.ofName? (String.ofList (c :: cs.takeWhile plain))).isSome then
        some .constant
      else some .numeral := by
  rw [shape?]
  · rintro rfl
    exact hparen rfl
  · rintro after rfl rfl
    exact hnegation rfl rfl

/-- A text that begins with a word. -/
theorem shape?_word {c : Char} {cs rest : List Char} (hdigit : c.isDigit = false)
    (hplain : ∀ d ∈ c :: cs, plain d = true) (hrest : Stops plain rest) :
    shape? (c :: (cs ++ rest)) =
      if rest.head? = some '(' then some .call
      else if (NamedConstant.ofName? (String.ofList (c :: cs))).isSome then some .constant
      else some .numeral := by
  obtain ⟨hc, hcs⟩ := List.forall_mem_cons.mp hplain
  have hparen : c ≠ '(' := by rintro rfl; cases hc
  have hminus : c ≠ '-' := by rintro rfl; cases hc
  rw [shape?_cons hparen fun h => absurd h hminus, if_neg (by simp [hminus, hdigit]),
    if_neg (by simp [hc]), takeWhile_append_of_stops hcs hrest, dropWhile_append_of_stops hcs hrest]

theorem head?_ne_of_delimited {rest : List Char} (h : Delimited rest) : rest.head? ≠ some '(' := by
  cases rest with
  | nil => simp
  | cons c rest => simpa using (h c rest rfl).2

/-- A name of a constant begins with one of three letters. -/
theorem head_of_ofName? {c : Char} {cs : List Char}
    (h : (NamedConstant.ofName? (String.ofList (c :: cs))).isSome = true) :
    c ∈ ['P', 'T', 'E'] := by
  obtain ⟨k, hk⟩ := Option.isSome_iff_exists.mp h
  have hname := congrArg String.toList (NamedConstant.name_of_ofName? hk)
  rw [String.toList_ofList] at hname
  cases k <;> cases hname <;> decide

/-- The words that no number is spelled with: neither calls nor names of constants. -/
theorem shape?_number_word {c : Char} {cs rest : List Char} (hc : c ∉ ['P', 'T', 'E'])
    (hdigit : c.isDigit = false) (hplain : ∀ d ∈ c :: cs, plain d = true)
    (hrest : Delimited rest ∨ ∃ d after, rest = d :: '^' :: after ∧ plain d = true) :
    shape? (c :: (cs ++ rest)) = some .numeral := by
  rcases hrest with hrest | ⟨d, after, rfl, hd⟩
  · rw [shape?_word hdigit hplain (stops_plain hrest), if_neg (head?_ne_of_delimited hrest),
      if_neg fun h => hc (head_of_ofName? h)]
  · have hword : ∀ e ∈ c :: (cs ++ [d]), plain e = true := by
      rw [← List.cons_append]
      exact List.forall_mem_append.mpr ⟨hplain, List.forall_mem_singleton.mpr hd⟩
    have hpower : Delimited ('^' :: after) := delimited_cons (by decide) (by decide)
    have hshape := shape?_word hdigit hword (stops_plain hpower)
    rw [if_neg (head?_ne_of_delimited hpower), if_neg fun h => hc (head_of_ofName? h)] at hshape
    simpa using hshape

/-- A number, with what may stand behind it in a canonical form. -/
theorem shape?_number {x : Float} {rest : List Char}
    (hrest : Delimited rest ∨ ∃ d after, rest = d :: '^' :: after ∧ plain d = true) :
    shape? ((text x).toList ++ rest) = some .numeral := by
  obtain ⟨negative, cs, hspelled, htext⟩ := exists_spelled x
  obtain ⟨c, after, hcs, hc⟩ := hspelled.head
  have hparen : c ≠ '(' := by
    rintro rfl
    generalize Datum.ofFloat x = d at hc
    cases d <;> cases hc
  rw [htext]
  cases negative with
  | true =>
    rw [hcs]
    refine (shape?_cons (by decide) fun _ h => hparen ?_).trans (if_pos (.inl rfl))
    exact Option.some.inj h
  | false =>
    show shape? (cs ++ rest) = _
    cases hd : Datum.ofFloat x with
    | undefined =>
      rw [hd] at hspelled
      cases hspelled
      exact shape?_number_word (by decide) rfl (List.all_eq_true.mp (by decide)) hrest
    | infinite _ =>
      rw [hd] at hspelled
      cases hspelled
      exact shape?_number_word (by decide) rfl (List.all_eq_true.mp (by decide)) hrest
    | finite s units =>
      rw [hd] at hc
      rw [hcs]
      have hminus : c ≠ '-' := ne_minus_of_leads hc
      exact (shape?_cons hparen fun h => absurd h hminus).trans (if_pos (.inr hc))

/-! ## Characters of canonical forms -/

variable {e l r : Expr Float} {es fs : List (Expr Float)} {rest after : List Char}

theorem exists_symbol (op : Operator) :
    ∃ c, op.symbol.toList = [c] ∧ Operator.ofChar? c = some op ∧ c ∈ signs ∧ c ≠ '(' := by
  cases op <;> exact ⟨_, rfl, rfl, by decide, by decide⟩

/-- The characters of the arguments of a call. -/
def operandChars : List (Expr Float) → List Char
  | [] => []
  | e :: es => e.canonical.toList ++ argumentChars es

theorem canonical_negate :
    (negate e).canonical.toList ++ rest = '-' :: '(' :: (e.canonical.toList ++ ')' :: rest) := by
  simp [canonical]

theorem canonical_binary (op : Operator) :
    (binary op l r).canonical.toList ++ rest =
      '(' :: (l.canonical.toList ++ (op.symbol.toList ++ (r.canonical.toList ++ ')' :: rest))) := by
  simp [canonical]

theorem canonical_call (name : String) :
    (call name es).canonical.toList ++ rest =
      name.toList ++ '(' :: (operandChars es ++ ')' :: rest) := by
  have hargs : (", ".intercalate (canonicalAll es)).toList = operandChars es := by
    cases es with
    | nil => simp [canonicalAll, operandChars]
    | cons e es => exact toList_intercalate_canonical e es
  simp [canonical, hargs]

theorem canonical_monomial (m : Monomial Float) :
    (monomial m).canonical.toList ++ rest = (text m.coefficient).toList ++
      (m.var.toList ++ '^' :: '(' :: ((text m.exponent).toList ++ ')' :: rest)) := by
  have htext : ∀ x : Float, Numeral.text x = text x := fun _ => rfl
  simp [canonical, Monomial.canonical, htext]

/-- The first characters of a canonical form tell the kind of its node. -/
theorem shape?_canonical (h : WellNamed e) (hrest : Delimited rest) :
    shape? (e.canonical.toList ++ rest) = some e.shape := by
  cases e with
  | number x => exact shape?_number (.inl hrest)
  | negate e =>
    rw [canonical_negate]
    rfl
  | binary op l r =>
    rw [canonical_binary]
    rfl
  | call name args =>
    obtain ⟨c, cs, hname, hdigit, hplain⟩ := (forall_subtrees_call.mp h).1
    rw [canonical_call, hname, List.cons_append,
      shape?_word hdigit hplain (stops_cons (by decide)), List.head?_cons, if_pos rfl]
    rfl
  | monomial m =>
    obtain ⟨c, hname, hc, -⟩ := plain_of_isVariable (forall_subtrees_monomial.mp h)
    rw [canonical_monomial, hname]
    exact shape?_number (.inr ⟨c, _, rfl, hc⟩)
  | constant name x =>
    obtain ⟨k, rfl, -⟩ := forall_subtrees_constant.mp h
    obtain ⟨c, cs, hname, hdigit, hplain⟩ := isName_constant k
    have hlist : String.ofList (c :: cs) = k.name := by rw [← hname, String.ofList_toList]
    show shape? (k.name.toList ++ rest) = _
    rw [hname, List.cons_append, shape?_word hdigit hplain (stops_plain hrest),
      if_neg (head?_ne_of_delimited hrest), hlist, NamedConstant.ofName?_name]
    rfl

/-! ## Whole trees -/

/-- The canonical form of a tree is told from what follows it, and no other tree has it. -/
def Determined (e : Expr Float) : Prop :=
  ∀ f rest after, WellNamed f → Delimited rest → Delimited after →
    e.canonical.toList ++ rest = f.canonical.toList ++ after → e.same f = true ∧ rest = after

theorem delimited_argumentChars (h : Delimited rest) : Delimited (argumentChars es ++ rest) := by
  cases es with
  | nil => exact h
  | cons e es => exact delimited_cons (by decide) (by decide)

theorem argumentChars_append_inj (he : ∀ e ∈ es, Determined e) (hf : ∀ f ∈ fs, WellNamed f)
    (h : argumentChars es ++ ')' :: rest = argumentChars fs ++ ')' :: after) :
    sameAll es fs = true ∧ rest = after := by
  have hclose : ∀ {rest}, Delimited (')' :: rest) := delimited_cons (by decide) (by decide)
  induction es generalizing fs with
  | nil =>
    cases fs with
    | nil => exact ⟨rfl, (List.cons.inj h).2⟩
    | cons f fs => cases (List.cons.inj h).1
  | cons e es ih =>
    rw [List.forall_mem_cons] at he
    cases fs with
    | nil => cases (List.cons.inj h).1
    | cons f fs =>
      rw [List.forall_mem_cons] at hf
      have h : e.canonical.toList ++ (argumentChars es ++ ')' :: rest) =
          f.canonical.toList ++ (argumentChars fs ++ ')' :: after) := by
        simpa [argumentChars] using h
      obtain ⟨hsame, h⟩ := he.1 f _ _ hf.1 (delimited_argumentChars hclose)
        (delimited_argumentChars hclose) h
      obtain ⟨hall, hrest⟩ := ih he.2 hf.2 h
      exact ⟨by simp [sameAll, hsame, hall], hrest⟩

theorem operandChars_append_inj (he : ∀ e ∈ es, Determined e) (he' : ∀ e ∈ es, WellNamed e)
    (hf : ∀ f ∈ fs, WellNamed f)
    (h : operandChars es ++ ')' :: rest = operandChars fs ++ ')' :: after) :
    sameAll es fs = true ∧ rest = after := by
  -- a closing parenthesis begins no canonical form
  have hne : ∀ {e : Expr Float} {rest after : List Char}, WellNamed e → Delimited rest →
      ')' :: after ≠ e.canonical.toList ++ rest := fun he hrest h => by
    have hshape := congrArg shape? h
    rw [shape?_canonical he hrest] at hshape
    cases hshape
  have hclose : ∀ {es : List (Expr Float)} {rest}, Delimited (argumentChars es ++ ')' :: rest) :=
    delimited_argumentChars (delimited_cons (by decide) (by decide))
  cases es with
  | nil =>
    cases fs with
    | nil => exact ⟨rfl, (List.cons.inj h).2⟩
    | cons f fs =>
      rw [operandChars, operandChars, List.nil_append, List.append_assoc] at h
      exact absurd h (hne (hf f List.mem_cons_self) hclose)
  | cons e es =>
    cases fs with
    | nil =>
      rw [operandChars, operandChars, List.nil_append, List.append_assoc] at h
      exact absurd h.symm (hne (he' e List.mem_cons_self) hclose)
    | cons f fs => exact argumentChars_append_inj he hf (congrArg (',' :: ' ' :: ·) h)

theorem endsNumber_of_delimited (h : Delimited rest) : EndsNumber rest := by
  have hsigns : signs.all (fun c => !(c.isDigit || c == '.')) = true := by decide
  refine ⟨fun c after hrest => ?_, fun after hrest => ?_⟩
  · simpa using List.all_eq_true.mp hsigns c (h c after hrest).1
  · have hmem := (h 'e' _ hrest).1
    revert hmem
    decide

/-- What stands behind the coefficient of a monomial. -/
theorem endsNumber_variable {name : String} (h : IsVariable name) :
    EndsNumber (name.toList ++ '^' :: rest) := by
  obtain ⟨c, hc, -, hliteral⟩ := plain_of_isVariable h
  rw [hc]
  refine ⟨stops_cons hliteral, fun after hrest => ?_⟩
  cases (List.cons.inj (List.cons.inj hrest).2).1

theorem not_delimited_variable {name : String} (h : IsVariable name) :
    ¬ Delimited (name.toList ++ after) := by
  obtain ⟨c, hc, hplain, -⟩ := plain_of_isVariable h
  intro hdelimited
  rw [hc] at hdelimited
  have hsign := (hdelimited c after rfl).1
  simp [plain, hsign] at hplain

/-- Trees that begin one text have one shape. -/
theorem shape_eq {f : Expr Float} (he : WellNamed e) (hf : WellNamed f) (hrest : Delimited rest)
    (hafter : Delimited after) (h : e.canonical.toList ++ rest = f.canonical.toList ++ after) :
    e.shape = f.shape := by
  have hshape := congrArg shape? h
  rw [shape?_canonical he hrest, shape?_canonical hf hafter] at hshape
  exact Option.some.inj hshape

theorem delimited_close : Delimited (')' :: rest) := delimited_cons (by decide) (by decide)

theorem determined_number (x : Float) : Determined (.number x) := by
  intro f rest after hf hrest hafter h
  have hshape := shape_eq (fun s hs => ?_) hf hrest hafter h
  · cases f <;> cases hshape
    next y =>
      exact text_append_inj (endsNumber_of_delimited hrest) (endsNumber_of_delimited hafter) h
    next n =>
      have hn := forall_subtrees_monomial.mp hf
      rw [canonical_monomial] at h
      obtain ⟨-, hrest'⟩ := text_append_inj (endsNumber_of_delimited hrest)
        (endsNumber_variable hn) h
      exact absurd (hrest' ▸ hrest) (not_delimited_variable hn)
  · obtain rfl := List.mem_singleton.mp hs
    trivial

theorem determined_monomial {m : Monomial Float} (hm : IsVariable m.var) :
    Determined (.monomial m) := by
  intro f rest after hf hrest hafter h
  have hshape := shape_eq (forall_subtrees_monomial.mpr hm) hf hrest hafter h
  rw [canonical_monomial] at h
  cases f <;> cases hshape
  next y =>
    obtain ⟨-, hrest'⟩ := text_append_inj (endsNumber_variable hm)
      (endsNumber_of_delimited hafter) h
    exact absurd (hrest' ▸ hafter) (not_delimited_variable hm)
  next n =>
    have hn := forall_subtrees_monomial.mp hf
    rw [canonical_monomial] at h
    obtain ⟨hcoefficient, h⟩ := text_append_inj (endsNumber_variable hm) (endsNumber_variable hn) h
    obtain ⟨c, hc, -⟩ := plain_of_isVariable hm
    obtain ⟨d, hd, -⟩ := plain_of_isVariable hn
    rw [hc, hd] at h
    obtain ⟨hcd, htail⟩ := List.cons.inj h
    have hvar : m.var = n.var := String.toList_inj.mp (by rw [hc, hd, hcd])
    obtain ⟨hexponent, hrest'⟩ := text_append_inj (endsNumber_of_delimited delimited_close)
      (endsNumber_of_delimited delimited_close) (List.cons.inj (List.cons.inj htail).2).2
    exact ⟨by simp [same, Monomial.same, hcoefficient, hvar, hexponent],
      (List.cons.inj hrest').2⟩

/-- A name is told from what follows it, which begins with a sign. -/
theorem name_append_inj {name other : String} (hname : IsName name) (hother : IsName other)
    (hrest : Stops plain rest) (hafter : Stops plain after)
    (h : name.toList ++ rest = other.toList ++ after) : name = other ∧ rest = after := by
  obtain ⟨c, cs, hc, -, hplain⟩ := hname
  obtain ⟨d, ds, hd, -, hplain'⟩ := hother
  rw [hc, hd] at h
  obtain ⟨heq, hrest⟩ := append_inj_of_stops hplain hplain' hrest hafter h
  exact ⟨String.toList_inj.mp (hc.trans (heq.trans hd.symm)), hrest⟩

theorem determined_call {name : String} (hcall : WellNamed (.call name es))
    (he : ∀ e ∈ es, Determined e) : Determined (.call name es) := by
  intro f rest after hf hrest hafter h
  have hshape := shape_eq hcall hf hrest hafter h
  obtain ⟨hname, hargs⟩ := forall_subtrees_call.mp hcall
  cases f <;> cases hshape
  next other fs =>
    obtain ⟨hother, hargs'⟩ := forall_subtrees_call.mp hf
    rw [canonical_call, canonical_call] at h
    obtain ⟨hnames, htail⟩ := name_append_inj hname hother (stops_cons (by decide))
      (stops_cons (by decide)) h
    obtain ⟨hsame, hrest'⟩ := operandChars_append_inj he hargs hargs' (List.cons.inj htail).2
    exact ⟨by simp [same, hnames, hsame], hrest'⟩

theorem determined_negate (hnegate : WellNamed (.negate e)) (he : Determined e) :
    Determined (.negate e) := by
  intro f rest after hf hrest hafter h
  have hshape := shape_eq hnegate hf hrest hafter h
  cases f <;> cases hshape
  next f =>
    rw [canonical_negate, canonical_negate] at h
    obtain ⟨hsame, hrest⟩ := he f _ _ (forall_subtrees_negate.mp hf).2 delimited_close
      delimited_close (List.cons.inj (List.cons.inj h).2).2
    exact ⟨hsame, (List.cons.inj hrest).2⟩

theorem determined_binary {op : Operator} (hbinary : WellNamed (.binary op l r))
    (hl : Determined l) (hr : Determined r) : Determined (.binary op l r) := by
  intro f rest after hf hrest hafter h
  have hshape := shape_eq hbinary hf hrest hafter h
  cases f <;> cases hshape
  next op' l' r' =>
    obtain ⟨-, hl', hr'⟩ := forall_subtrees_binary.mp hf
    obtain ⟨c, hc, hop, hsign, hopen⟩ := exists_symbol op
    obtain ⟨c', hc', hop', hsign', hopen'⟩ := exists_symbol op'
    rw [canonical_binary, canonical_binary, hc, hc', List.singleton_append,
      List.singleton_append] at h
    obtain ⟨hsame, htail⟩ := hl l' _ _ hl' (delimited_cons hsign hopen)
      (delimited_cons hsign' hopen') (List.cons.inj h).2
    obtain ⟨hsymbol, htail⟩ := List.cons.inj htail
    obtain rfl : op = op' := Option.some.inj (by rw [← hop, ← hop', hsymbol])
    obtain ⟨hsame', hclose⟩ := hr r' _ _ hr' delimited_close delimited_close htail
    exact ⟨by simp [same, hsame, hsame'], (List.cons.inj hclose).2⟩

theorem determined_constant (k : NamedConstant) : Determined (.constant k.name k.value) := by
  intro f rest after hf hrest hafter h
  have hshape := shape_eq (forall_subtrees_constant.mpr ⟨k, rfl, rfl⟩) hf hrest hafter h
  cases f <;> cases hshape
  next other y =>
    obtain ⟨l, rfl, rfl⟩ := forall_subtrees_constant.mp hf
    obtain ⟨hname, hrest⟩ := name_append_inj (isName_constant k) (isName_constant l)
      (stops_plain hrest) (stops_plain hafter) h
    have hsome := congrArg NamedConstant.ofName? hname
    rw [NamedConstant.ofName?_name, NamedConstant.ofName?_name] at hsome
    obtain rfl := Option.some.inj hsome
    exact ⟨by simp [same, LawfulSign.same_self], hrest⟩

/-- A canonical form is told from what follows it, and no other tree has it. -/
theorem determined (h : WellNamed e) : Determined e := by
  induction e with
  | number x => exact determined_number x
  | monomial m => exact determined_monomial (forall_subtrees_monomial.mp h)
  | negate e ih => exact determined_negate h (ih (forall_subtrees_negate.mp h).2)
  | binary op l r ihl ihr =>
    obtain ⟨-, hl, hr⟩ := forall_subtrees_binary.mp h
    exact determined_binary h (ihl hl) (ihr hr)
  | call name args ih =>
    exact determined_call h fun e he => ih e he ((forall_subtrees_call.mp h).2 e he)
  | constant name x =>
    obtain ⟨k, rfl, rfl⟩ := forall_subtrees_constant.mp h
    exact determined_constant k

/-- Well-named trees with one canonical form are the same. -/
theorem same_of_canonical {a b : Expr Float} (ha : WellNamed a) (hb : WellNamed b)
    (h : a.canonical = b.canonical) : a.same b = true :=
  (determined ha b [] [] hb delimited_nil delimited_nil (by rw [h])).1

/-- An equation with an infinite exponent, and with a zero of either sign. -/
theorem same_of_canonical_zero :
    let power : Expr Float := .monomial ⟨-1e-7, "x", 1.0 / 0.0⟩
    let pi : Expr Float := .constant "PI" NamedConstant.pi.value
    let zeroed (x : Float) : Expr Float := .call "f_1" [.negate (.number x), pi]
    let a := Expr.binary .equals (zeroed 0.0) power
    let b := Expr.binary .equals (zeroed (-0.0)) power
    WellNamed a ∧ WellNamed b ∧ a.canonical = b.canonical ∧ a.same b = true := by
  intro power pi zeroed a b
  have hpower : WellNamed power := forall_subtrees_monomial.mpr ⟨'x', rfl, by decide, rfl⟩
  have hpi : WellNamed pi := forall_subtrees_constant.mpr ⟨.pi, rfl, rfl⟩
  have hname : IsName "f_1" := @isName_of_word _ 'f' ['_', '1'] rfl (by decide)
    (List.all_eq_true.mp (by decide))
  have hzeroed : ∀ x : Float, WellNamed (zeroed x) := fun x => by
    have hnumber : WellNamed (.negate (.number x)) :=
      forall_subtrees_negate.mpr ⟨trivial, forall_subtrees_number.mpr trivial⟩
    exact forall_subtrees_call.mpr ⟨hname, List.forall_mem_cons.mpr
      ⟨hnumber, List.forall_mem_singleton.mpr hpi⟩⟩
  have hnamed : ∀ x : Float, WellNamed (.binary .equals (zeroed x) power) := fun x =>
    forall_subtrees_binary.mpr ⟨trivial, hzeroed x, hpower⟩
  have hcanonical : a.canonical = b.canonical := by decide +kernel
  exact ⟨hnamed _, hnamed _, hcanonical, same_of_canonical (hnamed _) (hnamed _) hcanonical⟩

end Expr
end SymbolicAlgebra
