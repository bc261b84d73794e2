import Mathlib.Data.List.Chain
import SymbolicAlgebra.Token.Scan

/-!
# What a scan takes off the front of a text

A character begins at most one kind of token: blanks, signs, digits and the
characters that begin words are apart from each other. So the first character
says what is taken, and each lemma here says what is left.

Results:
* `scan_blank`, `scan_sign`, `scan_number`, `scan_word`: one token, or one blank.
* `scan_literal`: a literal is read as a whole where no digit or point follows.
* `lexes_of_scan`: a scan that succeeds, token by token.
* `withProducts_of_isChain`: no product is put between tokens that mean none.
-/
namespace SymbolicAlgebra

namespace Text

/-! ## Sets of characters -/

theorem exists_of_inRanges {point : Nat} {ranges : List (Nat × Nat)}
    (h : inRanges point ranges = true) : ∃ r ∈ ranges, r.1 ≤ point ∧ point ≤ r.2 := by
  induction ranges with
  | nil => cases h
  | cons r ranges ih =>
    simp only [inRanges, Bool.and_eq_true, Bool.or_eq_true, decide_eq_true_eq] at h
    obtain ⟨hlow, hhigh | hrest⟩ := h
    · exact ⟨r, by simp, hlow, hhigh⟩
    · obtain ⟨r', hmem, hr'⟩ := ih hrest
      exact ⟨r', by simp [hmem], hr'⟩

/-- Whether no range of one list meets a range of the other. -/
def apart (as bs : List (Nat × Nat)) : Bool :=
  as.all fun a => bs.all fun b => decide (a.2 < b.1) || decide (b.2 < a.1)

theorem inRanges_eq_false {point : Nat} {as bs : List (Nat × Nat)} (h : apart as bs = true)
    (hpoint : inRanges point as = true) : inRanges point bs = false := by
  rw [Bool.eq_false_iff]
  intro hboth
  obtain ⟨a, ha, hlow, hhigh⟩ := exists_of_inRanges hpoint
  obtain ⟨b, hb, hlow', hhigh'⟩ := exists_of_inRanges hboth
  have hab := List.all_eq_true.mp (List.all_eq_true.mp h a ha) b hb
  simp only [Bool.or_eq_true, decide_eq_true_eq] at hab
  omega

theorem isBlank_of_isLetter {c : Char} (h : isLetter c = true) : isBlank c = false :=
  inRanges_eq_false (by decide +kernel : apart letterRanges blankRanges = true) h

end Text

namespace Token

open Text

variable {previous : Option Token} {c : Char} {cs ds rest word : List Char} {t : Token}

/-- The characters that are tokens of their own. -/
def signs : List Char := ['(', ')', ',', '+', '-', '*', '/', '%', '^', '=']

theorem mem_signs_of_ofSign? (h : ofSign? previous c = some t) : c ∈ signs := by
  unfold ofSign? Operator.ofChar? at h
  repeat' split at h
  all_goals first | cases h; done | simp [signs]

/-- A character of a kind that no sign has is no sign. -/
theorem ofSign?_eq_none {p : Char → Bool} (hp : signs.all (!p ·) = true) (h : p c = true) :
    ofSign? previous c = none := by
  cases hsign : ofSign? previous c with
  | none => rfl
  | some t =>
    have hnot := List.all_eq_true.mp hp c (mem_signs_of_ofSign? hsign)
    rw [h] at hnot
    cases hnot

theorem isBlank_of_mem_signs (h : c ∈ signs) : isBlank c = false := by
  have hall : signs.all (!isBlank ·) = true := by decide
  simpa using List.all_eq_true.mp hall c h

theorem inRanges_of_isDigit (h : c.isDigit = true) : inRanges c.toNat [(48, 57)] = true := by
  have hrange : 48 ≤ c.toNat ∧ c.toNat ≤ 57 := Char.isDigit_iff_toNat.mp h
  simp [inRanges, hrange]

theorem isBlank_of_isDigit (h : c.isDigit = true) : isBlank c = false :=
  inRanges_eq_false (by decide) (inRanges_of_isDigit h)

theorem isBlank_of_startsWord (h : startsWord c = true) : isBlank c = false := by
  simp only [startsWord, Bool.or_eq_true, beq_iff_eq] at h
  rcases h with h | rfl
  · exact isBlank_of_isLetter h
  · decide

theorem startsWord_of_isDigit (h : c.isDigit = true) : startsWord c = false := by
  have hletter : isLetter c = false :=
    inRanges_eq_false (by decide +kernel : apart _ letterRanges = true) (inRanges_of_isDigit h)
  have hunderscore : c ≠ '_' := by
    rintro rfl
    cases h
  simp [startsWord, hletter, hunderscore]

/-! ## One token -/

theorem scan_nil (previous : Option Token) : scan previous [] = .ok [] := by
  rw [scan]

theorem scan_blank (h : isBlank c = true) : scan previous (c :: rest) = scan previous rest := by
  rw [scan, if_pos h]

theorem scan_sign (h : ofSign? previous c = some t) :
    scan previous (c :: rest) = (scan (some t) rest).map (t :: ·) := by
  have hblank := isBlank_of_mem_signs (mem_signs_of_ofSign? h)
  rw [scan, hblank, h]
  rfl

/-- A digit begins a literal. -/
theorem scan_number (h : c.isDigit = true) (hsplit : splitNumber cs = (ds, rest)) :
    scan previous (c :: cs) =
      (scan (some (number (String.ofList (c :: ds)))) rest).map
        (number (String.ofList (c :: ds)) :: ·) := by
  rw [scan, isBlank_of_isDigit h, ofSign?_eq_none (p := Char.isDigit) (by decide) h, hsplit]
  simp [h]

theorem isDigit_of_startsWord (h : startsWord c = true) : c.isDigit = false := by
  rw [Bool.eq_false_iff]
  intro hdigit
  rw [startsWord_of_isDigit hdigit] at h
  cases h

theorem continuesWord_of_startsWord (h : startsWord c = true) : continuesWord c = true := by
  simp only [startsWord, continuesWord, Bool.or_eq_true] at h ⊢
  exact h.imp_left .inl

/-- A word goes on as long as it can. -/
theorem scan_word (h : startsWord c = true)
    (hword : ofWord (c :: cs.takeWhile continuesWord) (cs.dropWhile continuesWord) = .ok t) :
    scan previous (c :: cs) =
      (scan (some t) (cs.dropWhile continuesWord)).map (t :: ·) := by
  rw [scan, isBlank_of_startsWord h, ofSign?_eq_none (by decide +kernel) h, hword]
  simp [h, isDigit_of_startsWord h]

/-! ## Where a token ends -/

/-- No character that `p` holds of comes next. -/
def Stops (p : Char → Bool) (cs : List Char) : Prop := ∀ c rest, cs = c :: rest → p c = false

theorem stops_nil {p : Char → Bool} : Stops p [] := fun _ _ h => nomatch h

theorem stops_cons {p : Char → Bool} (h : p c = false) : Stops p (c :: cs) := by
  intro d rest hcs
  cases hcs
  exact h

theorem stops_dropWhile (p : Char → Bool) (cs : List Char) : Stops p (cs.dropWhile p) := by
  intro d after h
  have hhead := List.head?_dropWhile_not p cs
  rw [h] at hhead
  simpa using hhead

theorem exists_span (p : Char → Bool) (cs : List Char) :
    ∃ ds rest, cs = ds ++ rest ∧ (∀ d ∈ ds, p d = true) ∧ Stops p rest :=
  ⟨cs.takeWhile p, cs.dropWhile p, List.takeWhile_append_dropWhile.symm,
    List.all_eq_true.mp List.all_takeWhile, stops_dropWhile p cs⟩

theorem takeWhile_append_of_stops {p : Char → Bool} (hds : ∀ d ∈ ds, p d = true)
    (h : Stops p rest) : (ds ++ rest).takeWhile p = ds := by
  rw [List.takeWhile_append_of_pos hds]
  cases rest with
  | nil => simp
  | cons c rest => simp [h c rest rfl]

theorem dropWhile_append_of_stops {p : Char → Bool} (hds : ∀ d ∈ ds, p d = true)
    (h : Stops p rest) : (ds ++ rest).dropWhile p = rest := by
  rw [List.dropWhile_append_of_pos hds]
  cases rest with
  | nil => rfl
  | cons c rest => simp [h c rest rfl]

/-- A run of characters is told from a rest that does not go on with it. -/
theorem append_inj_of_stops {p : Char → Bool} {es after : List Char} (hds : ∀ d ∈ ds, p d = true)
    (hes : ∀ e ∈ es, p e = true) (hrest : Stops p rest) (hafter : Stops p after)
    (h : ds ++ rest = es ++ after) : ds = es ∧ rest = after := by
  constructor
  · rw [← takeWhile_append_of_stops hds hrest, h, takeWhile_append_of_stops hes hafter]
  · rw [← dropWhile_append_of_stops hds hrest, h, dropWhile_append_of_stops hes hafter]

/-- The digits of an integer, with neither a digit nor a fraction behind them. -/
theorem splitNumber_whole (hds : ∀ d ∈ ds, d.isDigit = true) (h : Stops Char.isDigit rest)
    (hpoint : ∀ d after, rest = '.' :: d :: after → d.isDigit = false) :
    splitNumber (ds ++ rest) = (ds, rest) := by
  unfold splitNumber
  rw [takeWhile_append_of_stops hds h, dropWhile_append_of_stops hds h]
  split
  · rw [if_neg (by simp [hpoint _ _ rfl])]
  · rfl

/-- The digits of an integer, with neither a digit nor a point behind them. -/
theorem splitNumber_append_of_stops (hds : ∀ d ∈ ds, d.isDigit = true)
    (h : Stops (fun d => d.isDigit || d == '.') rest) : splitNumber (ds ++ rest) = (ds, rest) := by
  have hdigits : Stops Char.isDigit rest := fun d after hd => by
    have hboth := h d after hd
    simp only [Bool.or_eq_false_iff] at hboth
    exact hboth.1
  refine splitNumber_whole hds hdigits fun d after hrest => ?_
  have hpoint := h _ _ hrest
  cases hpoint

/-- The digits of a number with a fraction, with no digit behind them. -/
theorem splitNumber_point {fs : List Char} {d : Char} (hds : ∀ d ∈ ds, d.isDigit = true)
    (hd : d.isDigit = true) (hfs : ∀ d ∈ fs, d.isDigit = true) (h : Stops Char.isDigit rest) :
    splitNumber (ds ++ '.' :: d :: (fs ++ rest)) = (ds ++ '.' :: d :: fs, rest) := by
  have hpoint : Stops Char.isDigit ('.' :: d :: (fs ++ rest)) := stops_cons (by decide)
  unfold splitNumber
  rw [takeWhile_append_of_stops hds hpoint, dropWhile_append_of_stops hds hpoint]
  simp only [hd, if_true, takeWhile_append_of_stops hfs h, dropWhile_append_of_stops hfs h]

/-- A literal goes on with digits, and with a point and more digits if there is a fraction. -/
theorem splitNumber_cases (cs : List Char) :
    (∃ ds d fs rest, cs = ds ++ '.' :: d :: (fs ++ rest) ∧ (∀ d ∈ ds, d.isDigit = true) ∧
      d.isDigit = true ∧ (∀ d ∈ fs, d.isDigit = true) ∧ Stops Char.isDigit rest) ∨
    ∃ ds rest, cs = ds ++ rest ∧ (∀ d ∈ ds, d.isDigit = true) ∧ Stops Char.isDigit rest ∧
      ∀ d after, rest = '.' :: d :: after → d.isDigit = false := by
  obtain ⟨ds, rest, rfl, hds, hrest⟩ := exists_span Char.isDigit cs
  by_cases hpoint : ∃ d after, rest = '.' :: d :: after ∧ d.isDigit = true
  · obtain ⟨d, after, rfl, hd⟩ := hpoint
    obtain ⟨fs, rest, rfl, hfs, hrest⟩ := exists_span Char.isDigit after
    exact .inl ⟨ds, d, fs, rest, rfl, hds, hd, hfs, hrest⟩
  · refine .inr ⟨ds, rest, rfl, hds, hrest, fun d after h => ?_⟩
    rw [Bool.eq_false_iff]
    exact fun hd => hpoint ⟨d, after, h, hd⟩

/-- Digits, and a point with more digits if there is a fraction. -/
inductive IsLiteral : List Char → Prop
  | integer {d : Char} {ds : List Char} : d.isDigit = true → (∀ c ∈ ds, c.isDigit = true) →
      IsLiteral (d :: ds)
  | fraction {d f : Char} {ds fs : List Char} : d.isDigit = true → (∀ c ∈ ds, c.isDigit = true) →
      f.isDigit = true → (∀ c ∈ fs, c.isDigit = true) → IsLiteral (d :: (ds ++ '.' :: f :: fs))

/-- A literal is read as a whole where neither a digit nor a point follows. -/
theorem scan_literal (hcs : IsLiteral cs) (h : Stops (fun d => d.isDigit || d == '.') rest) :
    scan previous (cs ++ rest) =
      (scan (some (number (String.ofList cs))) rest).map (number (String.ofList cs) :: ·) := by
  cases hcs with
  | integer hd hds => exact scan_number hd (splitNumber_append_of_stops hds h)
  | fraction hd hds hf hfs =>
    have hdigits : Stops Char.isDigit rest := fun c after hc => by
      have hboth := h c after hc
      simp only [Bool.or_eq_false_iff] at hboth
      exact hboth.1
    rw [List.cons_append, List.append_assoc]
    exact scan_number hd (splitNumber_point hds hf hfs hdigits)

/-- Whether a word is read as a variable, a function or a constant depends on what follows only by
whether a parenthesis opens. -/
theorem ofWord_congr {rest' : List Char} (h : opensCall rest = opensCall rest') :
    ofWord word rest = ofWord word rest' := by
  unfold ofWord
  rw [h]

/-! ## Every scan

A scan that succeeds takes one token, or one blank, after the other.
-/

/-- Behind the token `previous` the characters are the tokens. -/
inductive Lexes : Option Token → List Char → List Token → Prop
  | nil (previous : Option Token) : Lexes previous [] []
  | blank {previous : Option Token} {c : Char} {rest : List Char} {ts : List Token} :
      isBlank c = true → Lexes previous rest ts → Lexes previous (c :: rest) ts
  | sign {previous : Option Token} {c : Char} {t : Token} {rest : List Char} {ts : List Token} :
      ofSign? previous c = some t → Lexes (some t) rest ts → Lexes previous (c :: rest) (t :: ts)
  | number {previous : Option Token} {c : Char} {rest : List Char} {ts : List Token} :
      c.isDigit = true →
      Lexes (some (number (String.ofList (c :: (splitNumber rest).1)))) (splitNumber rest).2 ts →
      Lexes previous (c :: rest) (number (String.ofList (c :: (splitNumber rest).1)) :: ts)
  | word {previous : Option Token} {c : Char} {t : Token} {rest : List Char} {ts : List Token} :
      startsWord c = true →
      ofWord (c :: rest.takeWhile continuesWord) (rest.dropWhile continuesWord) = .ok t →
      Lexes (some t) (rest.dropWhile continuesWord) ts → Lexes previous (c :: rest) (t :: ts)

theorem exists_of_map_cons_eq_ok {result : Except SyntaxError (List Token)} {ts : List Token}
    (h : result.map (t :: ·) = .ok ts) : ∃ us, ts = t :: us ∧ result = .ok us := by
  cases result with
  | error e => cases h
  | ok us =>
    cases h
    exact ⟨us, rfl, rfl⟩

theorem lexes_of_scan {ts : List Token} (h : scan previous cs = .ok ts) :
    Lexes previous cs ts := by
  induction hn : cs.length using Nat.strongRecOn generalizing previous cs ts with
  | ind n ih =>
    cases cs with
    | nil =>
      rw [scan_nil] at h
      cases h
      exact .nil _
    | cons c rest =>
      rw [List.length_cons] at hn
      rw [scan] at h
      split at h
      · next hblank => exact .blank hblank (ih rest.length (by omega) h rfl)
      split at h
      · next t hsign =>
        obtain ⟨us, rfl, hrest⟩ := exists_of_map_cons_eq_ok h
        exact .sign hsign (ih rest.length (by omega) hrest rfl)
      split at h
      · next hdigit =>
        have hshorter := length_splitNumber_le rest
        obtain ⟨us, rfl, hrest⟩ := exists_of_map_cons_eq_ok h
        exact .number hdigit (ih _ (by omega) hrest rfl)
      split at h
      · next hstarts =>
        have hshorter := length_dropWhile_le continuesWord rest
        split at h
        · next t hword =>
          obtain ⟨us, rfl, hrest⟩ := exists_of_map_cons_eq_ok h
          exact .word hstarts hword (ih _ (by omega) hrest rfl)
        · cases h
      · cases h

theorem Lexes.scan_eq {ts : List Token} (h : Lexes previous cs ts) :
    scan previous cs = .ok ts := by
  induction h with
  | nil => exact scan_nil _
  | blank hc _ ih => rw [scan_blank hc, ih]
  | sign hc _ ih =>
    rw [scan_sign hc, ih]
    rfl
  | number hc _ ih =>
    rw [scan_number hc (Prod.eta _).symm, ih]
    rfl
  | word hc hword _ ih =>
    rw [scan_word hc hword, ih]
    rfl

theorem Lexes.number_of_split {ts : List Token} (hc : c.isDigit = true)
    (hsplit : splitNumber cs = (ds, rest))
    (h : Lexes (some (Token.number (String.ofList (c :: ds)))) rest ts) :
    Lexes previous (c :: cs) (Token.number (String.ofList (c :: ds)) :: ts) :=
  lexes_of_scan (by rw [scan_number hc hsplit, h.scan_eq]; rfl)

/-- A word goes on as long as it can. -/
theorem Lexes.word_append {ts : List Token} (hc : startsWord c = true)
    (hds : ∀ d ∈ ds, continuesWord d = true) (hrest : Stops continuesWord rest)
    (hword : ofWord (c :: ds) rest = .ok t) (h : Lexes (some t) rest ts) :
    Lexes previous (c :: (ds ++ rest)) (t :: ts) := by
  have htake := takeWhile_append_of_stops hds hrest
  have hdrop := dropWhile_append_of_stops hds hrest
  exact .word hc (by rw [htake, hdrop, hword]) (by rw [hdrop]; exact h)

/-- The token before matters only in so far as an operand may be expected behind it. -/
theorem Lexes.of_expectsOperand {previous' : Option Token} {ts : List Token}
    (h : Lexes previous cs ts) (hsame : expectsOperand previous = expectsOperand previous') :
    Lexes previous' cs ts := by
  induction h with
  | nil => exact .nil _
  | blank hc _ ih => exact .blank hc (ih hsame)
  | @sign previous c t rest ts hc h _ =>
    have hsign : ofSign? previous' c = some t := by
      rw [← hc]
      unfold ofSign?
      rw [hsame]
    exact .sign hsign h
  | number hc h _ => exact .number hc h
  | word hc hword h _ => exact .word hc hword h

theorem eq_of_ofSign?_equals (h : ofSign? previous c = some (operator .equals)) : c = '=' := by
  unfold ofSign? Operator.ofChar? at h
  repeat' split at h
  all_goals first | rfl | cases h

theorem ofWord_ne_operator {op : Operator} : ofWord word rest ≠ .ok (operator op) := by
  intro h
  simp only [ofWord] at h
  repeat' split at h
  all_goals cases h

/-- A text without an equals sign has no such token. -/
theorem Lexes.mem_of_equals {ts : List Token} (h : Lexes previous cs ts)
    (hmem : operator .equals ∈ ts) : '=' ∈ cs := by
  induction h with
  | nil => cases hmem
  | blank _ _ ih => exact List.mem_cons_of_mem _ (ih hmem)
  | sign hc _ ih =>
    rcases List.mem_cons.mp hmem with rfl | hmem
    · rw [eq_of_ofSign?_equals hc]
      exact List.mem_cons_self
    · exact List.mem_cons_of_mem _ (ih hmem)
  | @number previous c rest ts _ _ ih =>
    have hrest := ih ((List.mem_cons.mp hmem).resolve_left nofun)
    rw [← splitNumber_append rest]
    exact List.mem_cons_of_mem _ (List.mem_append_right _ hrest)
  | word _ hword _ ih =>
    rcases List.mem_cons.mp hmem with rfl | hmem
    · exact absurd hword ofWord_ne_operator
    · exact List.mem_cons_of_mem _ ((List.dropWhile_sublist _).mem (ih hmem))

/-! ## Products that are meant -/

theorem withProducts_cons (t u : Token) (ts : List Token) :
    withProducts (t :: u :: ts) =
      t :: ((if t.multiplies u then [operator .mul] else []) ++ withProducts (u :: ts)) := by
  rw [withProducts]
  split <;> rfl

theorem exists_withProducts (t : Token) (ts : List Token) :
    ∃ us, withProducts (t :: ts) = t :: us := by
  cases ts with
  | nil => exact ⟨[], rfl⟩
  | cons u ts => exact ⟨_, withProducts_cons t u ts⟩

/-- Only products are put between tokens. -/
theorem mem_withProducts {ts : List Token} (h : t ∈ withProducts ts) (ht : t ≠ operator .mul) :
    t ∈ ts := by
  induction ts with
  | nil => exact h
  | cons u ts ih =>
    cases ts with
    | nil => exact h
    | cons w ts =>
      rw [withProducts_cons, List.mem_cons, List.mem_append] at h
      rcases h with rfl | h | h
      · exact List.mem_cons_self
      · split at h
        · exact absurd (List.mem_singleton.mp h) ht
        · cases h
      · exact List.mem_cons_of_mem _ (ih h)

/-- Tokens between which no product is meant stay as they are. -/
theorem withProducts_of_isChain {ts : List Token}
    (h : ts.IsChain fun left right => left.multiplies right = false) : withProducts ts = ts := by
  induction ts with
  | nil => rfl
  | cons t ts ih =>
    cases ts with
    | nil => rfl
    | cons u ts =>
      rw [List.isChain_cons_cons] at h
      rw [withProducts, h.1, ih h.2]
      rfl

theorem ofText_of_lexes {text : String} {ts : List Token} (h : Lexes none text.toList ts) :
    ofText text = .ok (withProducts ts) := by
  rw [ofText, h.scan_eq]
  rfl

/-- The tokens of a text are those that are written and the products that are meant. -/
theorem lexes_of_ofText {text : String} {ts : List Token} (h : ofText text = .ok ts) :
    ∃ raw, Lexes none text.toList raw ∧ withProducts raw = ts := by
  unfold ofText at h
  cases hscan : scan none text.toList with
  | error e =>
    rw [hscan] at h
    cases h
  | ok raw =>
    rw [hscan] at h
    cases h
    exact ⟨raw, lexes_of_scan hscan, rfl⟩

theorem equals_not_mem_of_ofText {text : String} {ts : List Token} (h : ofText text = .ok ts)
    (htext : '=' ∉ text.toList) : operator .equals ∉ ts := by
  obtain ⟨raw, hlexes, rfl⟩ := lexes_of_ofText h
  exact fun hmem => htext (hlexes.mem_of_equals (mem_withProducts hmem (by decide)))

end Token
end SymbolicAlgebra
