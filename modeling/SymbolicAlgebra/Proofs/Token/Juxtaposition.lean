import SymbolicAlgebra.Proofs.Token.Scan

/-!
# Two texts side by side

A blank ends every token, and what stands behind it changes no token before it,
unless a parenthesis opens there: then a constant would become a function. So two
texts with a blank between them are the tokens of the one and of the other, if the
second begins with a word, and between the two a product is meant wherever it is
meant between the tokens that meet.

Results:
* `Lexes.append_blank`: the tokens that are written.
* `withProducts_append`: where products are meant.
* `ofText_append_blank`: what the two texts read as together.
-/
namespace SymbolicAlgebra.Token

open Text

variable {previous : Option Token} {b c : Char} {cs ds rest : List Char} {t u : Token}
variable {ts us : List Token}

/-- Whether a token is written as a word. -/
def isWord : Token → Bool
  | var _ | constant _ | function _ => true
  | _ => false

/-! ## A blank ends a token -/

theorem isDigit_of_isBlank (h : isBlank b = true) : b.isDigit = false := by
  rw [Bool.eq_false_iff]
  exact fun hdigit => Bool.false_ne_true ((isBlank_of_isDigit hdigit).symm.trans h)

theorem ne_point_of_isBlank (h : isBlank b = true) : b ≠ '.' := by
  rintro rfl
  revert h
  decide

theorem continuesWord_of_isBlank (h : isBlank b = true) : continuesWord b = false := by
  have hletter : isLetter b = false :=
    inRanges_eq_false (by decide +kernel : apart blankRanges letterRanges = true) h
  have hnumber : isNumber b = false :=
    inRanges_eq_false (by decide +kernel : apart blankRanges numberRanges = true) h
  have hunderscore : b ≠ '_' := by
    rintro rfl
    revert h
    decide
  simp [continuesWord, hletter, hnumber, hunderscore]

theorem Stops.append_cons {p : Char → Bool} (h : Stops p rest) (hb : p b = false) :
    Stops p (rest ++ b :: ds) := by
  cases rest with
  | nil => exact stops_cons hb
  | cons c rest => exact stops_cons (h c rest rfl)

/-- A literal does not go on behind a blank. -/
theorem splitNumber_append_blank (hb : isBlank b = true) (cs ds : List Char) :
    splitNumber (cs ++ b :: ds) = ((splitNumber cs).1, (splitNumber cs).2 ++ b :: ds) := by
  have hdigit := isDigit_of_isBlank hb
  rcases splitNumber_cases cs with ⟨whole, d, fs, rest, rfl, hwhole, hd, hfs, hrest⟩ |
    ⟨whole, rest, rfl, hwhole, hrest, hpoint⟩
  · have hend : Stops Char.isDigit (rest ++ b :: ds) := hrest.append_cons hdigit
    rw [splitNumber_point hwhole hd hfs hrest]
    simpa using splitNumber_point hwhole hd hfs hend
  · rw [splitNumber_whole hwhole hrest hpoint, List.append_assoc]
    refine splitNumber_whole hwhole (hrest.append_cons hdigit) fun d after h => ?_
    -- a point at the end has the blank behind it, and any other what it had before
    cases rest with
    | nil => exact absurd (List.cons.inj h).1 (ne_point_of_isBlank hb)
    | cons e tail =>
      obtain ⟨rfl, htail⟩ := List.cons.inj h
      cases tail with
      | nil =>
        rw [← (List.cons.inj htail).1]
        exact hdigit
      | cons f tail =>
        rw [← (List.cons.inj htail).1]
        exact hpoint f tail rfl

/-- Behind a blank nothing opens a call if no parenthesis opens there. -/
theorem opensCall_append_blank (hb : isBlank b = true) (hds : opensCall ds = false)
    (cs : List Char) : opensCall (cs ++ b :: ds) = opensCall cs := by
  unfold opensCall at *
  rw [List.dropWhile_append]
  split
  · next hempty =>
    rw [List.isEmpty_iff.mp hempty, List.dropWhile_cons_of_pos hb, hds]
    rfl
  · next hmore =>
    obtain ⟨d, after, hd⟩ := List.exists_cons_of_ne_nil (mt List.isEmpty_iff.mpr hmore)
    rw [hd]
    rfl

/-- The tokens of two texts with a blank between them. -/
theorem Lexes.append_blank (h : Lexes previous cs ts) (hb : isBlank b = true)
    (hds : opensCall ds = false) (hus : ∀ last, Lexes last ds us) :
    Lexes previous (cs ++ b :: ds) (ts ++ us) := by
  induction h with
  | nil previous => exact .blank hb (hus previous)
  | blank hc _ ih => exact .blank hc ih
  | sign hc _ ih => exact .sign hc ih
  | @number previous c rest ts hc _ ih =>
    exact .number_of_split hc (splitNumber_append_blank hb rest ds) ih
  | @word previous c t rest ts hc hword _ ih =>
    have hrest := @List.takeWhile_append_dropWhile _ continuesWord rest
    have hend : Stops continuesWord (rest.dropWhile continuesWord ++ b :: ds) :=
      (stops_dropWhile continuesWord rest).append_cons (continuesWord_of_isBlank hb)
    rw [← ofWord_congr (opensCall_append_blank hb hds (rest.dropWhile continuesWord))] at hword
    have htext : Lexes previous _ (t :: _) :=
      .word_append hc (List.all_eq_true.mp List.all_takeWhile) hend hword ih
    rwa [← List.append_assoc, hrest] at htext

/-! ## Texts that begin with a word -/

theorem isWord_of_ofSign? (h : ofSign? previous c = some t) : t.isWord = false := by
  unfold ofSign? at h
  repeat' split at h
  all_goals
    first
    | cases h; rfl
    | obtain ⟨op, -, rfl⟩ := Option.map_eq_some_iff.mp h; rfl

/-- A text whose first token is a word opens no call, and what stands before it does not matter. -/
theorem Lexes.of_isWord (h : Lexes previous cs ts) (hts : ts = u :: us) (hu : u.isWord = true) :
    opensCall cs = false ∧ ∀ last, Lexes last cs ts := by
  induction h with
  | nil => cases hts
  | @blank previous c rest ts hc _ ih =>
    obtain ⟨hopens, hlexes⟩ := ih hts
    refine ⟨?_, fun last => .blank hc (hlexes last)⟩
    rwa [opensCall, List.dropWhile_cons_of_pos hc]
  | sign hc =>
    cases hts
    rw [isWord_of_ofSign? hc] at hu
    cases hu
  | number =>
    cases hts
    cases hu
  | @word previous c t rest ts hc hword h _ =>
    refine ⟨?_, fun last => .word hc hword h⟩
    have hparen : c ≠ '(' := by
      rintro rfl
      revert hc
      decide +kernel
    simp [opensCall, isBlank_of_startsWord hc, hparen]

/-! ## Products between the two -/

theorem withProducts_cons_of_head? (h : ts.head? = some u) :
    withProducts (t :: ts) =
      t :: ((if t.multiplies u then [operator .mul] else []) ++ withProducts ts) := by
  obtain ⟨us, rfl⟩ := List.head?_eq_some_iff.mp h
  exact withProducts_cons t u us

theorem exists_head?_append (ts us : List Token) (t : Token) :
    ∃ u, (ts ++ [t]).head? = some u ∧ (ts ++ t :: us).head? = some u := by
  cases ts with
  | nil => exact ⟨t, rfl, rfl⟩
  | cons u ts => exact ⟨u, rfl, rfl⟩

/-- Products are meant between two lists of tokens as between the tokens that meet. -/
theorem withProducts_append (ts : List Token) (t u : Token) (us : List Token) :
    withProducts (ts ++ t :: u :: us) =
      withProducts (ts ++ [t]) ++
        ((if t.multiplies u then [operator .mul] else []) ++ withProducts (u :: us)) := by
  induction ts with
  | nil => exact withProducts_cons t u us
  | cons w ts ih =>
    obtain ⟨v, hshort, hlong⟩ := exists_head?_append ts (u :: us) t
    rw [List.cons_append, List.cons_append, withProducts_cons_of_head? hlong,
      withProducts_cons_of_head? hshort, ih]
    simp

/-- The last token that is written stays the last. -/
theorem exists_withProducts_concat (ts : List Token) (t : Token) :
    ∃ us, withProducts (ts ++ [t]) = us ++ [t] := by
  induction ts with
  | nil => exact ⟨[], rfl⟩
  | cons w ts ih =>
    obtain ⟨us, hus⟩ := ih
    obtain ⟨v, hshort, -⟩ := exists_head?_append ts [] t
    rw [List.cons_append, withProducts_cons_of_head? hshort, hus, ← List.append_assoc,
      ← List.cons_append]
    exact ⟨_, rfl⟩

/-- The last token was written. -/
theorem exists_written_concat (h : withProducts us = ts ++ [t]) : ∃ init, us = init ++ [t] := by
  rcases List.eq_nil_or_concat' us with rfl | ⟨init, u, rfl⟩
  · exact absurd h.symm (by simp [withProducts])
  · obtain ⟨vs, hvs⟩ := exists_withProducts_concat init u
    obtain ⟨-, hlast⟩ := List.append_inj' (hvs.symm.trans h) rfl
    exact ⟨init, by rw [hlast]⟩

/-- The first token was written. -/
theorem exists_written_cons (h : withProducts us = t :: ts) : ∃ rest, us = t :: rest := by
  cases us with
  | nil => cases h
  | cons u us =>
    obtain ⟨vs, hvs⟩ := exists_withProducts u us
    exact ⟨us, by rw [(List.cons.inj (hvs.symm.trans h)).1]⟩

/-- What two texts read as together, with a blank between them, where the second begins with a
word. -/
theorem ofText_append_blank {A B : String} (hA : ofText A = .ok (ts ++ [t]))
    (hB : ofText B = .ok (u :: us)) (hu : u.isWord = true) :
    ofText (A ++ " " ++ B) =
      .ok (ts ++ [t] ++ ((if t.multiplies u then [operator .mul] else []) ++ u :: us)) := by
  obtain ⟨rawA, hlexesA, hrawA⟩ := lexes_of_ofText hA
  obtain ⟨rawB, hlexesB, hrawB⟩ := lexes_of_ofText hB
  obtain ⟨writtenA, rfl⟩ := exists_written_concat hrawA
  obtain ⟨writtenB, rfl⟩ := exists_written_cons hrawB
  obtain ⟨hopens, hbehind⟩ := hlexesB.of_isWord rfl hu
  have hlexes := hlexesA.append_blank (b := ' ') (by decide) hopens hbehind
  have htext : (A ++ " " ++ B).toList = A.toList ++ ' ' :: B.toList := by simp
  rw [← htext] at hlexes
  rw [ofText_of_lexes hlexes, List.append_assoc, List.singleton_append, withProducts_append,
    hrawA, hrawB]

end SymbolicAlgebra.Token
