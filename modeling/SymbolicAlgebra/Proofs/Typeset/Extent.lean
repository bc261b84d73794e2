import SymbolicAlgebra.Expr.Typeset
import SymbolicAlgebra.Proofs.Decimal.Figures
import SymbolicAlgebra.Proofs.Reading.Leaves

/-!
# Where a typeset text ends

In a typeset text every brace and every parenthesis is closed, and a comma stands
between parentheses only. So a typeset text that stands between braces, or among
the arguments of a call, ends at the first closer or comma that answers nothing
in it, whatever the tree is.

Results:
* `closing_typeset`: reading on to that place passes over a typeset text.
* `typeset_append_inj`: a typeset text is told from what closes it.
* `argumentChars_inj`: the typeset arguments of a call are told from one another.
-/
namespace SymbolicAlgebra

open Binary64

namespace Typeset

/-- The signs that open, close or part what stands between them. -/
def brackets : List Char := ['\x7b', '\x7d', '(', ')', ',']

/-- What is left from the first closer or comma on that `depth` openers before the text and those in
the text do not answer. -/
def closing : Nat → List Char → List Char
  | _, [] => []
  | depth, c :: cs =>
    if c = '\x7b' ∨ c = '(' then closing (depth + 1) cs
    else if c = '\x7d' ∨ c = ')' then
      if depth = 0 then c :: cs else closing (depth - 1) cs
    else if c = ',' ∧ depth = 0 then c :: cs
    else closing depth cs

/-- A text that closes or parts, or the end. -/
def Closes (rest : List Char) : Prop :=
  ∀ c after, rest = c :: after → c = '\x7d' ∨ c = ')' ∨ c = ','

/-- A text that opens nothing, closes nothing and parts nothing outside of its own brackets. -/
def Closed (cs : List Char) : Prop :=
  ∀ depth rest, closing depth (cs ++ rest) = closing depth rest

variable {cs ds rest after : List Char}

theorem closing_of_closes (h : Closes rest) : closing 0 rest = rest := by
  cases rest with
  | nil => rfl
  | cons c rest => obtain rfl | rfl | rfl := h c rest rfl <;> rfl

theorem closes_brace : Closes ('\x7d' :: rest) := fun _ _ h => .inl (List.cons.inj h).1.symm

theorem closes_paren : Closes (')' :: rest) := fun _ _ h => .inr (.inl (List.cons.inj h).1.symm)

theorem closes_comma : Closes (',' :: rest) := fun _ _ h => .inr (.inr (List.cons.inj h).1.symm)

/-! ## Closed texts -/

theorem Closed.append (h : Closed cs) (h' : Closed ds) : Closed (cs ++ ds) := fun depth rest => by
  rw [List.append_assoc, h, h']

theorem closed_of_plain (h : ∀ c ∈ cs, c ∉ brackets) : Closed cs := by
  intro depth rest
  induction cs with
  | nil => rfl
  | cons c cs ih =>
    rw [List.forall_mem_cons] at h
    obtain ⟨hc, hcs⟩ := h
    simp only [brackets, List.mem_cons, List.not_mem_nil, or_false, not_or] at hc
    rw [List.cons_append, closing, if_neg (by simp [hc]), if_neg (by simp [hc]),
      if_neg (by simp [hc]), ih hcs]

theorem closed_of_all (h : cs.all (!brackets.contains ·) = true) : Closed cs :=
  closed_of_plain fun c hc => by simpa using List.all_eq_true.mp h c hc

theorem closed_nil : Closed [] := fun _ _ => rfl

/-- Between parentheses a comma parts nothing that is outside of them. -/
theorem Closed.parenthesized (h : ∀ depth rest, closing (depth + 1) (cs ++ rest) =
    closing (depth + 1) rest) : Closed ('(' :: (cs ++ [')'])) := by
  intro depth rest
  rw [List.cons_append, List.append_assoc, closing, if_pos (.inr rfl), h]
  rfl

theorem Closed.braced (h : Closed cs) : Closed ('\x7b' :: (cs ++ ['\x7d'])) := by
  intro depth rest
  rw [List.cons_append, List.append_assoc, closing, if_pos (.inl rfl), h]
  rfl

/-- Where a closed text ends is seen from what closes it. -/
theorem Closed.append_inj (hcs : Closed cs) (hds : Closed ds) (hrest : Closes rest)
    (hafter : Closes after) (h : cs ++ rest = ds ++ after) : cs = ds ∧ rest = after := by
  have hclosing := congrArg (closing 0) h
  rw [hcs, hds, closing_of_closes hrest, closing_of_closes hafter] at hclosing
  subst hclosing
  exact ⟨List.append_cancel_right h, rfl⟩

/-! ## Typeset texts -/

open Token (startsWord continuesWord IsVariable IsWord)

theorem closed_of_word (h : ∀ c ∈ cs, continuesWord c = true) : Closed cs := by
  have hall : brackets.all (!continuesWord ·) = true := by decide
  refine closed_of_plain fun c hc hbracket => ?_
  have hnot := List.all_eq_true.mp hall c hbracket
  rw [h c hc] at hnot
  cases hnot

theorem continuesWord_of_isWord {name : String} (h : IsWord name) :
    ∀ c ∈ name.toList, continuesWord c = true := by
  obtain ⟨c, cs, hname, hc, hcs⟩ := h
  rw [hname]
  exact List.forall_mem_cons.mpr ⟨Token.continuesWord_of_startsWord hc, hcs⟩

theorem isWord_of_isVariable {name : String} (h : IsVariable name) : IsWord name := by
  obtain ⟨c, hname, hletter, -⟩ := h
  exact ⟨c, [], hname, by simp [startsWord, hletter], List.forall_mem_nil _⟩

theorem isWord_constant (k : NamedConstant) : IsWord k.name := by
  cases k <;> exact ⟨_, _, rfl, rfl, List.all_eq_true.mp (by decide)⟩

theorem closed_name {name : String} (h : IsWord name) : Closed name.toList :=
  closed_of_word (continuesWord_of_isWord h)

theorem closed_figures (f : Decimal.Figures) : Closed f.text := by
  have hdigits : ∀ {ds : List Char}, (∀ d ∈ ds, d.isDigit = true) → Closed ds := fun hds =>
    closed_of_plain fun c hc hbracket => by
      have hall : brackets.all (!·.isDigit) = true := by decide
      have hnot := List.all_eq_true.mp hall c hbracket
      rw [hds c hc] at hnot
      cases hnot
  have hmarked : ∀ {mark ds : List Char}, Closed mark → Closed ds →
      Closed (Decimal.marked mark ds) := fun {mark ds} hmark hds => by
    cases ds with
    | nil => exact closed_nil
    | cons d ds => exact hmark.append hds
  exact (hdigits f.isDigit_whole).append
    ((hmarked (closed_of_all (by decide)) (hdigits f.isDigit_fraction)).append
      (hmarked (closed_of_all (by decide)) (hdigits f.isDigit_exponent)))

/-- The text of a number holds no brackets. -/
theorem closed_number (x : Float) : Closed (text x).toList := by
  obtain ⟨negative, cs, hspelled, htext⟩ := exists_spelled x
  have hcs : Closed cs := by
    generalize Datum.ofFloat x = d at hspelled
    cases hspelled with
    | undefined | infinite _ => exact closed_of_all (by decide)
    | finite f _ => exact closed_figures f
  rw [htext]
  cases negative with
  | false => exact hcs
  | true => exact Closed.append (closed_of_all (by decide) : Closed ['-']) hcs

/-- The text of a number is not empty. -/
theorem text_ne_nil (x : Float) : (text x).toList ≠ [] := by
  obtain ⟨negative, cs, hspelled, htext⟩ := exists_spelled x
  obtain ⟨c, after, rfl, -⟩ := hspelled.head
  rw [htext]
  cases negative <;> exact List.cons_ne_nil _ _

/-! ## Arguments -/

/-- The characters of the arguments of a call. -/
def listed : List String → List Char
  | [] => []
  | s :: ss => s.toList ++ ss.flatMap fun t => ',' :: ' ' :: t.toList

theorem toList_intercalate (ss : List String) : (", ".intercalate ss).toList = listed ss := by
  cases ss with
  | nil => rfl
  | cons s ss => exact Token.toList_intercalate_comma s ss

variable {s : String} {ss ts : List String}

/-- The further arguments of a call open and close nothing, and their commas are between
parentheses. -/
theorem closing_further (h : ∀ s ∈ ss, Closed s.toList) (depth : Nat) (rest : List Char) :
    closing (depth + 1) ((ss.flatMap fun t => ',' :: ' ' :: t.toList) ++ rest) =
      closing (depth + 1) rest := by
  induction ss with
  | nil => rfl
  | cons s ss ih =>
    rw [List.forall_mem_cons] at h
    have hcomma : ∀ cs, closing (depth + 1) (',' :: ' ' :: cs) = closing (depth + 1) cs :=
      fun _ => rfl
    rw [List.flatMap_cons, List.cons_append, List.cons_append, List.cons_append, List.cons_append,
      hcomma, List.append_assoc, h.1, ih h.2]

theorem closed_parenthesized (h : ∀ s ∈ ss, Closed s.toList) :
    Closed ('(' :: (listed ss ++ [')'])) := by
  refine Closed.parenthesized fun depth rest => ?_
  cases ss with
  | nil => rfl
  | cons s ss =>
    rw [List.forall_mem_cons] at h
    rw [listed, List.append_assoc, h.1, closing_further h.2]

theorem closes_further :
    Closes ((ss.flatMap fun t => ',' :: ' ' :: t.toList) ++ ')' :: rest) := by
  cases ss with
  | nil => exact closes_paren
  | cons s ss => exact closes_comma

theorem further_append_inj (hs : ∀ s ∈ ss, Closed s.toList) (ht : ∀ t ∈ ts, Closed t.toList)
    (h : (ss.flatMap fun t => ',' :: ' ' :: t.toList) ++ ')' :: rest =
      (ts.flatMap fun t => ',' :: ' ' :: t.toList) ++ ')' :: after) : ss = ts ∧ rest = after := by
  induction ss generalizing ts with
  | nil =>
    cases ts with
    | nil => exact ⟨rfl, (List.cons.inj h).2⟩
    | cons t ts => cases (List.cons.inj h).1
  | cons s ss ih =>
    cases ts with
    | nil => cases (List.cons.inj h).1
    | cons t ts =>
      rw [List.forall_mem_cons] at hs ht
      simp only [List.flatMap_cons, List.cons_append, List.append_assoc, List.cons.injEq,
        true_and] at h
      obtain ⟨hst, h⟩ := hs.1.append_inj ht.1 closes_further closes_further h
      obtain ⟨rfl, hrest⟩ := ih hs.2 ht.2 h
      exact ⟨by rw [String.toList_inj.mp hst], hrest⟩

/-- The arguments of a call are told from one another and from what follows the call. -/
theorem listed_append_inj (hs : ∀ s ∈ ss, Closed s.toList ∧ s.toList ≠ [])
    (ht : ∀ t ∈ ts, Closed t.toList ∧ t.toList ≠ [])
    (h : listed ss ++ ')' :: rest = listed ts ++ ')' :: after) : ss = ts ∧ rest = after := by
  -- a closing parenthesis does not begin an argument
  have hne : ∀ {s : String} {ss : List String} {rest after : List Char},
      Closed s.toList → s.toList ≠ [] → listed (s :: ss) ++ ')' :: rest ≠ ')' :: after := by
    intro s ss rest after hs hempty h
    rw [listed, List.append_assoc] at h
    exact hempty (hs.append_inj closed_nil closes_further closes_paren h).1
  cases ss with
  | nil =>
    cases ts with
    | nil => exact ⟨rfl, (List.cons.inj h).2⟩
    | cons t ts =>
      obtain ⟨hclosed, hempty⟩ := ht t List.mem_cons_self
      exact absurd h.symm (hne hclosed hempty)
  | cons s ss =>
    cases ts with
    | nil =>
      obtain ⟨hclosed, hempty⟩ := hs s List.mem_cons_self
      exact absurd h (hne hclosed hempty)
    | cons t ts =>
      exact further_append_inj (fun s h => (hs s h).1) (fun t h => (ht t h).1)
        (congrArg (',' :: ' ' :: ·) h)

/-! ## Whole trees -/

section
variable {e l r : Expr Float} {es : List (Expr Float)} {c x : Float}

/-- The characters of a coefficient. -/
def coefficientChars (c : Float) : List Char :=
  if Scalar.eqv c (Scalar.natural 1) then [] else (text c).toList

/-- The characters of an exponent. -/
def exponentChars (x : Float) : List Char :=
  if Scalar.eqv x (Scalar.natural 1) then [] else '^' :: '\x7b' :: ((text x).toList ++ ['\x7d'])

theorem typeset_monomial (m : Monomial Float) : (Expr.monomial m).typeset.toList =
    coefficientChars m.coefficient ++ (m.var.toList ++ exponentChars m.exponent) := by
  have htext : ∀ x : Float, Numeral.text x = text x := fun _ => rfl
  unfold coefficientChars exponentChars Expr.typeset Monomial.typeset
  split <;> split <;> simp [htext, braced]

theorem typeset_negate : (Expr.negate e).typeset.toList = '-' :: e.typeset.toList := by
  simp [Expr.typeset]

theorem typeset_call (name : String) : (Expr.call name es).typeset.toList =
    name.toList ++ '(' :: (listed (es.map Expr.typeset) ++ [')']) := by
  have hlisted := toList_intercalate (es.map Expr.typeset)
  simp only [Expr.typeset, Expr.typesetAll_eq_map, String.toList_append, hlisted]
  simp

theorem typeset_div : (Expr.binary .div l r).typeset.toList =
    ['\\', 'f', 'r', 'a', 'c'] ++ ('\x7b' :: (l.typeset.toList ++ ['\x7d']) ++
      '\x7b' :: (r.typeset.toList ++ ['\x7d'])) := by
  simp [Expr.typeset, Expr.typesetBinary, braced]

theorem typeset_pow : (Expr.binary .pow l r).typeset.toList =
    '^' :: '\x7b' :: (r.typeset.toList ++ ['\x7d']) := by
  simp [Expr.typeset, Expr.typesetBinary, braced]

theorem closed_coefficient : Closed (coefficientChars c) := by
  unfold coefficientChars
  split
  · exact closed_nil
  · exact closed_number c

theorem closed_exponent : Closed (exponentChars x) := by
  unfold exponentChars
  split
  · exact closed_nil
  · exact Closed.append (closed_of_all (by decide) : Closed ['^']) (closed_number x).braced

/-- An operator that neither raises nor divides stands between its operands. -/
theorem closed_joined {op : Operator} (hl : Closed l.typeset.toList) (hr : Closed r.typeset.toList)
    (hpow : op ≠ .pow) (hdiv : op ≠ .div) : Closed (Expr.binary op l r).typeset.toList := by
  have hjoin : ∀ {join : String}, join.toList.all (!brackets.contains ·) = true →
      Closed (l.typeset ++ join ++ r.typeset).toList := fun hjoin => by
    rw [String.toList_append, String.toList_append]
    exact (hl.append (closed_of_all hjoin)).append hr
  cases op with
  | pow => exact absurd rfl hpow
  | div => exact absurd rfl hdiv
  | mul =>
    show Closed (l.typeset ++ "\\cdot" ++ r.typeset).toList
    exact hjoin (by decide)
  | add | sub | mod | equals => exact hjoin (by decide)

/-- The typeset text of a tree opens and closes nothing that it does not close and open. -/
theorem closed_typeset (h : e.Literate) : Closed e.typeset.toList := by
  induction e with
  | number x => exact closed_number x
  | negate e ih =>
    rw [typeset_negate]
    exact Closed.append (closed_of_all (by decide) : Closed ['-'])
      (ih (Expr.forall_subtrees_negate.mp h).2)
  | binary op l r ihl ihr =>
    obtain ⟨-, hl, hr⟩ := Expr.forall_subtrees_binary.mp h
    by_cases hpow : op = .pow
    · subst hpow
      rw [typeset_pow]
      exact Closed.append (closed_of_all (by decide) : Closed ['^']) (ihr hr).braced
    by_cases hdiv : op = .div
    · subst hdiv
      rw [typeset_div]
      exact (closed_of_all (by decide)).append ((ihl hl).braced.append (ihr hr).braced)
    exact closed_joined (ihl hl) (ihr hr) hpow hdiv
  | call name args ih =>
    obtain ⟨hname, hargs⟩ := Expr.forall_subtrees_call.mp h
    rw [typeset_call]
    refine (closed_name hname).append (closed_parenthesized ?_)
    exact List.forall_mem_map.mpr fun e he => ih e he (hargs e he)
  | monomial m =>
    obtain ⟨-, hvar⟩ := Expr.forall_subtrees_monomial.mp h
    rw [typeset_monomial]
    exact closed_coefficient.append ((closed_name (isWord_of_isVariable hvar)).append
      closed_exponent)
  | constant name x =>
    obtain ⟨k, rfl, -⟩ := Expr.forall_subtrees_constant.mp h
    exact closed_name (isWord_constant k)

theorem ne_nil_of_isWord {name : String} (h : IsWord name) : name.toList ≠ [] := by
  obtain ⟨c, cs, hname, -⟩ := h
  rw [hname]
  exact List.cons_ne_nil c cs

/-- No typeset text is empty. -/
theorem typeset_ne_nil (h : Expr.LiterateNode e) : e.typeset.toList ≠ [] := by
  cases e with
  | number x => exact text_ne_nil x
  | negate e => simp [typeset_negate]
  | binary op l r => cases op <;> simp [Expr.typeset, Expr.typesetBinary, braced, Operator.symbol]
  | call name args => simp [typeset_call]
  | monomial m => simp [typeset_monomial, ne_nil_of_isWord (isWord_of_isVariable h.2)]
  | constant name x =>
    obtain ⟨k, rfl, -⟩ := h
    exact ne_nil_of_isWord (isWord_constant k)

end

end Typeset
end SymbolicAlgebra
