import SymbolicAlgebra.Proofs.Token.Juxtaposition
import SymbolicAlgebra.Proofs.Token.Kind

/-!
# Every character goes into one token

A scan leaves out blanks and nothing else, so the tokens spell the text without
its blanks. What a token is depends on the characters it is made of, and beyond
them on two things only: a minus sign depends on the token before it, and a word
on whether a parenthesis opens behind it. The products are put in afterwards,
from the tokens that stand side by side.

Results:
* `Lexes.spells`: the lexemes are the text without its blanks.
* `Lexes.minus`: which minus signs are negations.
* `Lexes.opened`: a parenthesis stands behind each function name.
* `inserted_withProducts`: where a product is put in.
-/
namespace SymbolicAlgebra.Token

open Text

variable {previous : Option Token} {c : Char} {cs rest word : List Char} {t u : Token}
variable {ts us before after : List Token}

/-! ## Lexemes -/

/-- The characters of a list of tokens. -/
def spell (ts : List Token) : List Char := ts.flatMap fun t => t.lexeme.toList

theorem spell_cons (t : Token) (ts : List Token) : spell (t :: ts) = t.lexeme.toList ++ spell ts :=
  List.flatMap_cons

theorem symbol_of_ofChar? {op : Operator} (h : Operator.ofChar? c = some op) :
    op.symbol.toList = [c] := by
  unfold Operator.ofChar? at h
  split at h <;> cases h <;> rfl

theorem lexeme_of_ofSign? (h : ofSign? previous c = some t) : t.lexeme.toList = [c] := by
  unfold ofSign? at h
  split at h
  · cases h; rfl
  · cases h; rfl
  · cases h; rfl
  · split at h <;> cases h <;> rfl
  · obtain ⟨op, hop, rfl⟩ := Option.map_eq_some_iff.mp h
    exact symbol_of_ofChar? hop

theorem lexeme_of_ofWord (h : ofWord word rest = .ok t) : t.lexeme.toList = word := by
  simp only [ofWord] at h
  split at h
  · cases h
    exact String.toList_ofList
  split at h
  · cases h
    exact String.toList_ofList
  · split at h
    · next k hk =>
      cases h
      rw [lexeme, NamedConstant.name_of_ofName? hk]
      exact String.toList_ofList
    · cases h

theorem isBlank_of_continuesWord (h : continuesWord c = true) : isBlank c = false := by
  rw [Bool.eq_false_iff]
  exact fun hblank => Bool.false_ne_true ((continuesWord_of_isBlank hblank).symm.trans h)

/-- No blank stands in a literal. -/
theorem isBlank_of_mem_splitNumber (h : c ∈ (splitNumber cs).1) : isBlank c = false := by
  have hpoint : isBlank '.' = false := by decide
  rcases splitNumber_cases cs with ⟨ds, d, fs, rest, rfl, hds, hd, hfs, hrest⟩ |
    ⟨ds, rest, rfl, hds, hrest, hnext⟩
  · rw [splitNumber_point hds hd hfs hrest] at h
    simp only [List.mem_append, List.mem_cons] at h
    rcases h with h | rfl | rfl | h
    · exact isBlank_of_isDigit (hds c h)
    · exact hpoint
    · exact isBlank_of_isDigit hd
    · exact isBlank_of_isDigit (hfs c h)
  · rw [splitNumber_whole hds hrest hnext] at h
    exact isBlank_of_isDigit (hds c h)

/-- The characters of a text that are not blank. -/
def inked (cs : List Char) : List Char := cs.filter (!isBlank ·)

theorem inked_append_of_forall (h : ∀ c ∈ cs, isBlank c = false) :
    inked (cs ++ rest) = cs ++ inked rest := by
  have hcs : inked cs = cs := List.filter_eq_self.mpr fun c hc => by rw [h c hc]; rfl
  rw [inked, List.filter_append]
  exact congrArg (· ++ _) hcs

/-- The tokens spell the text without its blanks. -/
theorem Lexes.spells (h : Lexes previous cs ts) : spell ts = inked cs := by
  induction h with
  | nil => rfl
  | blank hc _ ih => rw [ih, inked, inked, List.filter_cons_of_neg (by simp [hc])]
  | @sign previous c t rest ts hc _ ih =>
    have hblank := isBlank_of_mem_signs (mem_signs_of_ofSign? hc)
    have hink : inked ([c] ++ rest) = [c] ++ inked rest :=
      inked_append_of_forall (List.forall_mem_singleton.mpr hblank)
    rw [spell_cons, lexeme_of_ofSign? hc, ih]
    exact hink.symm
  | @number previous c rest ts hc _ ih =>
    have hink : inked (c :: (splitNumber rest).1 ++ (splitNumber rest).2) =
        c :: (splitNumber rest).1 ++ inked (splitNumber rest).2 :=
      inked_append_of_forall (List.forall_mem_cons.mpr
        ⟨isBlank_of_isDigit hc, fun d hd => isBlank_of_mem_splitNumber hd⟩)
    rw [List.cons_append, splitNumber_append] at hink
    rw [spell_cons, lexeme, String.toList_ofList, ih, hink]
  | @word previous c t rest ts hc hword _ ih =>
    have hink : inked (c :: rest.takeWhile continuesWord ++ rest.dropWhile continuesWord) =
        c :: rest.takeWhile continuesWord ++ inked (rest.dropWhile continuesWord) :=
      inked_append_of_forall (List.forall_mem_cons.mpr ⟨isBlank_of_startsWord hc, fun d hd =>
        isBlank_of_continuesWord (List.all_eq_true.mp List.all_takeWhile d hd)⟩)
    rw [List.cons_append, List.takeWhile_append_dropWhile] at hink
    rw [spell_cons, lexeme_of_ofWord hword, ih, hink]

/-! ## Minus signs -/

/-- What a scan makes of its characters is said of each token, with the one before it. -/
theorem Lexes.each {P : Option Token → Token → Prop}
    (hsign : ∀ previous c t, ofSign? previous c = some t → P previous t)
    (hnumber : ∀ previous c ds, c.isDigit = true → P previous (.number (String.ofList (c :: ds))))
    (hword : ∀ previous c ds rest t, startsWord c = true → ofWord (c :: ds) rest = .ok t →
      P previous t)
    (h : Lexes previous cs ts) (hts : ts = before ++ t :: after) :
    P (before.getLast?.or previous) t := by
  have hlast : ∀ (b : Token) (before : List Token) (previous : Option Token),
      (b :: before).getLast?.or previous = before.getLast?.or (some b) := by
    intro b before previous
    cases before with
    | nil => rfl
    | cons d before => rw [List.getLast?_cons_cons, List.getLast?_cons]; rfl
  have hcons : ∀ {previous : Option Token} {u : Token} {us : List Token}, P previous u →
      (∀ {before}, us = before ++ t :: after → P (before.getLast?.or (some u)) t) →
      ∀ {before}, u :: us = before ++ t :: after → P (before.getLast?.or previous) t := by
    intro previous u us hu hus before hts
    cases before with
    | nil =>
      obtain ⟨rfl, -⟩ := List.cons.inj hts
      exact hu
    | cons b before =>
      obtain ⟨rfl, htail⟩ := List.cons.inj hts
      rw [hlast]
      exact hus htail
  induction h generalizing before with
  | nil => simp at hts
  | blank _ _ ih => exact ih hts
  | sign hc _ ih => exact hcons (hsign _ _ _ hc) ih hts
  | number hc _ ih => exact hcons (hnumber _ _ _ hc) ih hts
  | word hc hw _ ih => exact hcons (hword _ _ _ _ _ hc hw) ih hts

/-- A minus sign is a negation or a difference by the token before it. -/
theorem Lexes.minus (h : Lexes previous cs (before ++ t :: after)) (ht : t.lexeme = "-") :
    t = if expectsOperand (before.getLast?.or previous) then .negation else .operator .sub := by
  have hhead : ∀ {t : Token} {c : Char} {ds : List Char}, t.lexeme.toList = c :: ds →
      t.lexeme = "-" → c = '-' := by
    intro t c ds hlist ht
    rw [ht] at hlist
    exact (List.cons.inj hlist).1.symm
  refine Lexes.each (P := fun previous t => t.lexeme = "-" →
    t = if expectsOperand previous then .negation else .operator .sub) ?_ ?_ ?_ h rfl ht
  · intro previous c t hc ht
    obtain rfl := hhead (lexeme_of_ofSign? hc) ht
    exact (Option.some.inj hc).symm
  · intro previous c ds hc ht
    obtain rfl := hhead (t := .number _) String.toList_ofList ht
    cases hc
  · intro previous c ds rest t hc hw ht
    obtain rfl := hhead (lexeme_of_ofWord hw) ht
    have hno : startsWord '-' = false := by decide +kernel
    exact absurd (hno.symm.trans hc) Bool.false_ne_true

/-! ## Function names -/

/-- A parenthesis stands behind each function name. -/
def Opened (ts : List Token) : Prop :=
  ∀ before name after, ts = before ++ .function name :: after → after.head? = some .leftParen

theorem opened_cons (h : Opened ts)
    (ht : ∀ name, t = .function name → ts.head? = some .leftParen) : Opened (t :: ts) := by
  intro before name after hts
  cases before with
  | nil =>
    obtain ⟨rfl, rfl⟩ := List.cons.inj hts
    exact ht name rfl
  | cons b before => exact h before name after (List.cons.inj hts).2

theorem Opened.of_append (us : List Token) (h : Opened (us ++ ts)) : Opened ts := by
  intro before name after hts
  exact h (us ++ before) name after (by rw [hts, List.append_assoc])

/-- Where a parenthesis opens, it is the next token. -/
theorem Lexes.head?_of_opensCall (h : Lexes previous cs ts) (hopens : opensCall cs = true) :
    ts.head? = some .leftParen := by
  have hfirst : ∀ {c : Char} {rest : List Char}, isBlank c = false →
      opensCall (c :: rest) = true → c = '(' := by
    intro c rest hblank h
    simpa [opensCall, List.dropWhile_cons, hblank] using h
  induction h with
  | nil => cases hopens
  | blank hc _ ih => exact ih (by rwa [opensCall, List.dropWhile_cons_of_pos hc] at hopens)
  | sign hc =>
    obtain rfl := hfirst (isBlank_of_mem_signs (mem_signs_of_ofSign? hc)) hopens
    cases hc
    rfl
  | number hc =>
    obtain rfl := hfirst (isBlank_of_isDigit hc) hopens
    cases hc
  | word hc =>
    obtain rfl := hfirst (isBlank_of_startsWord hc) hopens
    have hno : startsWord '(' = false := by decide +kernel
    exact absurd (hno.symm.trans hc) Bool.false_ne_true

theorem opensCall_of_ofWord_function {name : String} (h : ofWord word rest = .ok (function name)) :
    opensCall rest = true := by
  simp only [ofWord] at h
  split at h
  · cases h
  split at h
  · next hopens => exact hopens
  · split at h <;> cases h

theorem Lexes.opened (h : Lexes previous cs ts) : Opened ts := by
  induction h with
  | nil =>
    intro before name after hts
    simp at hts
  | blank _ _ ih => exact ih
  | sign hc _ ih =>
    refine opened_cons ih fun name ht => ?_
    subst ht
    have hword := isWord_of_ofSign? hc
    cases hword
  | number _ _ ih => exact opened_cons ih fun name ht => nomatch ht
  | word _ hword hrest ih =>
    refine opened_cons ih fun name ht => ?_
    subst ht
    exact hrest.head?_of_opensCall (opensCall_of_ofWord_function hword)

/-- No product is put between a function name and its parenthesis. -/
theorem Opened.withProducts (h : Opened ts) : Opened (withProducts ts) := by
  induction ts with
  | nil => exact h
  | cons t ts ih =>
    have hts : Opened (Token.withProducts ts) := ih (Opened.of_append [t] h)
    cases ts with
    | nil => exact h
    | cons u ts =>
      obtain ⟨us, hus⟩ := exists_withProducts u ts
      rw [withProducts_cons]
      split
      · next hmul =>
        refine opened_cons (opened_cons hts nofun) fun name ht => ?_
        subst ht
        cases hmul
      · refine opened_cons hts fun name ht => ?_
        have hhead := h [] name (u :: ts) (by rw [ht]; rfl)
        rw [List.nil_append, hus]
        exact hhead

/-! ## Products -/

/-- An operand ends with the one token and begins with the other, but not with a number before a
number or before a variable. -/
def Meet (t u : Token) : Prop :=
  EndsOperand t ∧ BeginsOperand u ∧
    ∀ s, t = .number s → (∀ s', u ≠ .number s') ∧ ∀ name, u ≠ .var name

theorem multiplies_iff : t.multiplies u = true ↔ Meet t u := by
  rw [Meet, ← endsOperand_iff, ← startsOperand_iff]
  cases t <;> cases u <;> simp [multiplies, endsOperand, startsOperand]

/-- The second list is the first with a product directly before each token that meets the one
before it. -/
inductive Inserted : List Token → List Token → Prop
  | nil : Inserted [] []
  | single (t : Token) : Inserted [t] [t]
  | product {t u : Token} {ts us : List Token} : Meet t u → Inserted (u :: ts) us →
      Inserted (t :: u :: ts) (t :: .operator .mul :: us)
  | beside {t u : Token} {ts us : List Token} : ¬ Meet t u → Inserted (u :: ts) us →
      Inserted (t :: u :: ts) (t :: us)

theorem inserted_withProducts (ts : List Token) : Inserted ts (withProducts ts) := by
  induction ts with
  | nil => exact .nil
  | cons t ts ih =>
    cases ts with
    | nil => exact .single t
    | cons u ts =>
      rw [withProducts]
      split
      · next hmul => exact .product (multiplies_iff.mp hmul) ih
      · next hmul => exact .beside (mt multiplies_iff.mpr hmul) ih

end SymbolicAlgebra.Token
