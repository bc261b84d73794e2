import SymbolicAlgebra.Proofs.Token.Scan

/-!
# A number in the place of the variables

`instantiate` puts a number in parentheses in the place of every variable of a
text. The other tokens stay as they are, unless a constant stands right before a
variable: `E x` becomes `E (2)`, where `E` is a function. A number before a
variable is its coefficient, and before the parenthesis a factor.

Results:
* `Lexes.substitute`: the tokens that are written, with the variables replaced.
* `withProducts_flatMap`: where products are meant then.
* `ofText_instantiate`: what the text reads as.
-/
namespace SymbolicAlgebra.Token

open Text

/-! ## Texts -/

/-- Whether a word is a variable wherever it stands. -/
def isVariableWord (word : List Char) : Bool :=
  (NamedConstant.ofName? (String.ofList word)).isNone && word.length == 1 && word.all isLetter

/-- A text with the characters `value` in the place of every variable. -/
def substitute (value : List Char) : List Char → List Char
  | [] => []
  | c :: rest =>
    if startsWord c then
      let word := c :: rest.takeWhile continuesWord
      (if isVariableWord word then value else word) ++
        substitute value (rest.dropWhile continuesWord)
    else c :: substitute value rest
termination_by cs => cs.length
decreasing_by
  · have := length_dropWhile_le continuesWord rest
    simp only [List.length_cons]; omega
  · simp

/-- A text with the literal `lexeme` in parentheses in the place of every variable. -/
def instantiate (lexeme text : String) : String :=
  String.ofList (substitute ('(' :: (lexeme.toList ++ [')'])) text.toList)

variable {previous : Option Token} {c : Char} {cs ds rest value word : List Char} {t : Token}
variable {ts us : List Token} {lexeme : String}

theorem startsWord_of_isBlank (h : isBlank c = true) : startsWord c = false := by
  rw [Bool.eq_false_iff]
  exact fun hword => Bool.false_ne_true ((isBlank_of_startsWord hword).symm.trans h)

theorem startsWord_of_ofSign? (h : ofSign? previous c = some t) : startsWord c = false := by
  have hall : signs.all (!startsWord ·) = true := by decide +kernel
  simpa using List.all_eq_true.mp hall c (mem_signs_of_ofSign? h)

theorem substitute_nil : substitute value [] = [] := by
  rw [substitute]

theorem substitute_cons (h : startsWord c = false) :
    substitute value (c :: cs) = c :: substitute value cs := by
  rw [substitute, if_neg (by simp [h])]

theorem substitute_append (h : ∀ d ∈ ds, startsWord d = false) :
    substitute value (ds ++ cs) = ds ++ substitute value cs := by
  induction ds with
  | nil => rfl
  | cons d ds ih =>
    rw [List.forall_mem_cons] at h
    rw [List.cons_append, substitute_cons h.1, ih h.2, List.cons_append]

theorem substitute_variable (h : startsWord c = true)
    (hword : isVariableWord (c :: cs.takeWhile continuesWord) = true) :
    substitute value (c :: cs) = value ++ substitute value (cs.dropWhile continuesWord) := by
  rw [substitute, if_pos h]
  simp only [hword, if_true]

theorem substitute_word (h : startsWord c = true)
    (hword : isVariableWord (c :: cs.takeWhile continuesWord) = false) :
    substitute value (c :: cs) =
      c :: (cs.takeWhile continuesWord ++ substitute value (cs.dropWhile continuesWord)) := by
  rw [substitute, if_pos h]
  simp [hword]

/-- The text begins as before or with the parenthesis that is put in. -/
theorem head_substitute (value : List Char) (c : Char) (cs : List Char) :
    (∃ rest, substitute ('(' :: value) (c :: cs) = c :: rest) ∨
      startsWord c = true ∧ isVariableWord (c :: cs.takeWhile continuesWord) = true ∧
        ∃ rest, substitute ('(' :: value) (c :: cs) = '(' :: rest := by
  cases hc : startsWord c with
  | false => exact .inl ⟨_, substitute_cons hc⟩
  | true =>
    cases hword : isVariableWord (c :: cs.takeWhile continuesWord) with
    | false => exact .inl ⟨_, substitute_word hc hword⟩
    | true => exact .inr ⟨rfl, rfl, _, substitute_variable hc hword⟩

theorem stops_substitute {p : Char → Bool} (hp : p '(' = false) (h : Stops p cs) :
    Stops p (substitute ('(' :: value) cs) := by
  cases cs with
  | nil =>
    rw [substitute_nil]
    exact stops_nil
  | cons c cs =>
    rcases head_substitute value c cs with ⟨rest, heq⟩ | ⟨-, -, rest, heq⟩
    · rw [heq]
      exact stops_cons (h c cs rfl)
    · rw [heq]
      exact stops_cons hp

/-! ### Literals -/

/-- What is put in the place of variables is not taken for a part of a literal. -/
theorem splitNumber_substitute (value cs : List Char) :
    splitNumber (substitute ('(' :: value) cs) =
      ((splitNumber cs).1, substitute ('(' :: value) (splitNumber cs).2) := by
  have hpass : ∀ ds : List Char, (∀ d ∈ ds, d.isDigit = true) → ∀ d ∈ ds, startsWord d = false :=
    fun ds h d hd => startsWord_of_isDigit (h d hd)
  rcases splitNumber_cases cs with ⟨ds, d, fs, rest, rfl, hds, hd, hfs, hrest⟩ |
    ⟨ds, rest, rfl, hds, hrest, hpoint⟩
  · rw [splitNumber_point hds hd hfs hrest, substitute_append (hpass ds hds),
      substitute_cons (by decide +kernel), substitute_cons (startsWord_of_isDigit hd),
      substitute_append (hpass fs hfs)]
    exact splitNumber_point hds hd hfs (stops_substitute (by decide) hrest)
  · rw [splitNumber_whole hds hrest hpoint, substitute_append (hpass ds hds)]
    refine splitNumber_whole hds (stops_substitute (by decide) hrest) ?_
    intro d after h
    -- a point is not put in, so it stood there before
    obtain ⟨tail, rfl⟩ : ∃ tail, rest = '.' :: tail := by
      cases rest with
      | nil =>
        rw [substitute_nil] at h
        cases h
      | cons c tail =>
        rcases head_substitute value c tail with ⟨_, heq⟩ | ⟨-, -, _, heq⟩
        · rw [heq] at h
          exact ⟨tail, by rw [(List.cons.inj h).1]⟩
        · rw [heq] at h
          cases h
    rw [substitute_cons (by decide +kernel)] at h
    have htail : Stops Char.isDigit tail := by
      intro e after' htail
      subst htail
      exact hpoint e after' rfl
    exact stops_substitute (by decide) htail d after (List.cons.inj h).2

/-! ### Words -/

theorem ofWord_variable (h : isVariableWord word = true) :
    ofWord word rest = .ok (var (String.ofList word)) := by
  simp only [isVariableWord] at h
  simp only [ofWord, h, if_true]

/-- A word that is no variable is a function before a parenthesis and a constant elsewhere. -/
theorem ofWord_cases (h : isVariableWord word = false) (hword : ofWord word rest = .ok t) :
    opensCall rest = true ∧ t = function (String.ofList word) ∨
      opensCall rest = false ∧ ∃ k, NamedConstant.ofName? (String.ofList word) = some k ∧
        t = constant k := by
  simp only [isVariableWord] at h
  simp only [ofWord, h, Bool.false_eq_true, if_false] at hword
  cases hopens : opensCall rest with
  | true =>
    rw [hopens] at hword
    cases hword
    exact .inl ⟨rfl, rfl⟩
  | false =>
    simp only [hopens, Bool.false_eq_true, if_false] at hword
    split at hword
    · next k hk =>
      cases hword
      exact .inr ⟨rfl, k, hk, rfl⟩
    · cases hword

theorem scan_append_blanks {bs : List Char} (h : ∀ b ∈ bs, isBlank b = true) :
    scan previous (bs ++ cs) = scan previous cs := by
  induction bs with
  | nil => rfl
  | cons b bs ih =>
    rw [List.forall_mem_cons] at h
    rw [List.cons_append, scan_blank h.1, ih h.2]

theorem opensCall_append_blanks {bs : List Char} (h : ∀ b ∈ bs, isBlank b = true)
    (hrest : Stops isBlank rest) : opensCall (bs ++ rest) = (rest.head? == some '(') := by
  rw [opensCall, dropWhile_append_of_stops h hrest]

/-- Where a parenthesis opens, no variable comes next. -/
theorem ne_var_of_opensCall (h : scan previous cs = .ok ts) (hopens : opensCall cs = true)
    (name : String) (us : List Token) : ts ≠ var name :: us := by
  obtain ⟨bs, rest, rfl, hbs, hrest⟩ := exists_span isBlank cs
  rw [opensCall_append_blanks hbs hrest, beq_iff_eq] at hopens
  obtain ⟨rest, rfl⟩ := List.head?_eq_some_iff.mp hopens
  rw [scan_append_blanks hbs, scan_sign (t := leftParen) rfl] at h
  obtain ⟨us', rfl, -⟩ := exists_of_map_cons_eq_ok h
  exact nofun

/-- If no variable comes next, a parenthesis opens where one did before. -/
theorem opensCall_substitute (h : scan previous cs = .ok ts)
    (hvar : ∀ name us, ts ≠ var name :: us) :
    opensCall (substitute ('(' :: value) cs) = opensCall cs := by
  obtain ⟨bs, rest, rfl, hbs, hrest⟩ := exists_span isBlank cs
  rw [scan_append_blanks hbs] at h
  rw [substitute_append fun b hb => startsWord_of_isBlank (hbs b hb),
    opensCall_append_blanks hbs hrest,
    opensCall_append_blanks hbs (stops_substitute (by decide) hrest)]
  cases rest with
  | nil => rw [substitute_nil]
  | cons c rest =>
    rcases head_substitute value c rest with ⟨_, heq⟩ | ⟨hstarts, hword, -⟩
    · rw [heq]
      rfl
    · rw [scan_word hstarts (ofWord_variable hword)] at h
      obtain ⟨us, rfl, -⟩ := exists_of_map_cons_eq_ok h
      exact absurd rfl (hvar _ us)

/-! ### Whole texts -/

/-- The tokens in the place of a token. -/
def instances (lexeme : String) : Token → List Token
  | var _ => [leftParen, number lexeme, rightParen]
  | t => [t]

theorem instances_of_ofSign? (h : ofSign? previous c = some t) : instances lexeme t = [t] := by
  unfold ofSign? at h
  repeat' split at h
  all_goals
    first
    | cases h; rfl
    | obtain ⟨op, -, rfl⟩ := Option.map_eq_some_iff.mp h; rfl

/-- What is read behind the parentheses that are put in is what was read behind the variable. -/
theorem lexes_parenthesized {name : String} (hlexeme : IsLiteral lexeme.toList)
    (h : Lexes (some (var name)) cs ts) :
    Lexes previous ('(' :: (lexeme.toList ++ [')']) ++ cs)
      (leftParen :: number lexeme :: rightParen :: ts) := by
  have hclose : ofSign? (some (number lexeme)) ')' = some rightParen := rfl
  have hafter : scan (some (number lexeme)) (')' :: cs) = .ok (rightParen :: ts) := by
    rw [scan_sign hclose, (h.of_expectsOperand rfl : Lexes (some rightParen) cs ts).scan_eq]
    rfl
  have hliteral : scan (some leftParen) (lexeme.toList ++ ')' :: cs) =
      .ok (number lexeme :: rightParen :: ts) := by
    rw [scan_literal hlexeme (stops_cons (by decide)), String.ofList_toList, hafter]
    rfl
  rw [List.cons_append, List.append_assoc]
  exact .sign rfl (lexes_of_scan hliteral)

/-- No constant stands right before a variable. -/
def Separate (ts : List Token) : Prop :=
  ts.IsChain fun left right => ∀ k name, left = constant k → right ≠ var name

/-- A word that is no variable stays what it is. -/
theorem ofWord_substitute (hvar : isVariableWord word = false) (hword : ofWord word rest = .ok t)
    (h : Lexes (some t) rest ts) (hts : Separate (t :: ts)) :
    ofWord word (substitute ('(' :: value) rest) = .ok t := by
  have hnext : ∀ name us, ts ≠ var name :: us := by
    rcases ofWord_cases hvar hword with ⟨hopens, -⟩ | ⟨-, k, -, rfl⟩
    · exact ne_var_of_opensCall h.scan_eq hopens
    · rintro name us rfl
      exact (List.isChain_cons_cons.mp hts).1 k name rfl rfl
  rw [ofWord_congr (opensCall_substitute h.scan_eq hnext), hword]

theorem instances_of_ofWord (hvar : isVariableWord word = false)
    (hword : ofWord word rest = .ok t) : instances lexeme t = [t] := by
  rcases ofWord_cases hvar hword with ⟨-, rfl⟩ | ⟨-, k, -, rfl⟩ <;> rfl

/-- The tokens of a text with a literal in parentheses in the place of every variable. -/
theorem Lexes.substitute (hlexeme : IsLiteral lexeme.toList) (h : Lexes previous cs ts)
    (hts : Separate ts) :
    Lexes previous (substitute ('(' :: (lexeme.toList ++ [')'])) cs)
      (ts.flatMap (instances lexeme)) := by
  induction h with
  | nil previous =>
    rw [substitute_nil]
    exact .nil _
  | blank hc _ ih =>
    rw [substitute_cons (startsWord_of_isBlank hc)]
    exact .blank hc (ih hts)
  | sign hc _ ih =>
    rw [substitute_cons (startsWord_of_ofSign? hc), List.flatMap_cons, instances_of_ofSign? hc]
    exact .sign hc (ih hts.tail)
  | @number previous c rest ts hc _ ih =>
    rw [substitute_cons (startsWord_of_isDigit hc)]
    exact .number_of_split hc (splitNumber_substitute _ rest) (ih hts.tail)
  | @word previous c t rest ts hc hword h ih =>
    have ih := ih hts.tail
    cases hvar : isVariableWord (c :: rest.takeWhile continuesWord) with
    | true =>
      rw [ofWord_variable hvar] at hword
      cases hword
      rw [substitute_variable hc hvar]
      exact lexes_parenthesized hlexeme ih
    | false =>
      rw [substitute_word hc hvar, List.flatMap_cons, instances_of_ofWord hvar hword]
      exact .word_append hc (List.all_eq_true.mp List.all_takeWhile)
        (stops_substitute (by decide +kernel) (stops_dropWhile _ _))
        (ofWord_substitute hvar hword h hts) ih

/-! ## Products -/

/-- Tokens with a literal in parentheses in the place of every variable. A coefficient becomes a
factor. -/
def spliced (lexeme : String) : List Token → List Token
  | number c :: var _ :: ts =>
    number c :: operator .mul :: leftParen :: number lexeme :: rightParen :: spliced lexeme ts
  | var _ :: ts => leftParen :: number lexeme :: rightParen :: spliced lexeme ts
  | t :: ts => t :: spliced lexeme ts
  | [] => []

theorem spliced_coefficient (c name : String) (ts : List Token) :
    spliced lexeme (number c :: var name :: ts) =
      number c :: operator .mul :: (instances lexeme (var name) ++ spliced lexeme ts) := rfl

/-- A token that is no coefficient is replaced for itself. -/
theorem spliced_cons (h : ∀ c name us, t = number c → ts ≠ var name :: us) :
    spliced lexeme (t :: ts) = instances lexeme t ++ spliced lexeme ts := by
  cases t with
  | number c =>
    cases ts with
    | nil => rfl
    | cons u us =>
      cases u with
      | var name => exact absurd rfl (h c name us rfl)
      | _ => rfl
  | _ => rfl

theorem spliced_append (h : ∀ name, t ≠ var name) (ts us : List Token) :
    spliced lexeme (ts ++ t :: us) = spliced lexeme ts ++ spliced lexeme (t :: us) := by
  fun_induction spliced lexeme ts with
  | case1 c name ts ih => simp [spliced_coefficient, instances, ih]
  | case2 name ts ih => simp [spliced, ih]
  | case3 u ts hcoefficient hvar ih =>
    have hinstances : instances lexeme u = [u] := by
      cases u <;> first | rfl | exact absurd rfl (hvar _)
    have halone : ∀ c name rest, u = number c → ts ++ t :: us ≠ var name :: rest := by
      intro c name rest hu heq
      cases ts with
      | nil => exact h name (List.cons.inj heq).1
      | cons w ts => exact hcoefficient c name ts hu (by rw [(List.cons.inj heq).1])
    rw [List.cons_append, spliced_cons halone, hinstances, ih]
    rfl
  | case4 => rfl

/-! ### Where products are meant -/

/-- The last of the tokens in the place of a token. -/
def closing : Token → Token
  | var _ => rightParen
  | t => t

theorem withProducts_instances_append (t v : Token) (vs : List Token) :
    withProducts (instances lexeme t ++ v :: vs) =
      instances lexeme t ++ ((if t.closing.multiplies v then [operator .mul] else []) ++
        withProducts (v :: vs)) := by
  cases t with
  | var name =>
    show withProducts (leftParen :: number lexeme :: rightParen :: v :: vs) = _
    rw [withProducts_cons, withProducts_cons, withProducts_cons]
    rfl
  | _ => exact withProducts_cons _ v vs

/-- Parentheses multiply as the variables did that they stand for, but not behind a number. -/
theorem exists_instances (lexeme : String) (t u : Token) (ts : List Token)
    (h : ∀ c name, t = number c → u ≠ var name) :
    ∃ v us, (u :: ts).flatMap (instances lexeme) = v :: us ∧
      t.closing.multiplies v = t.multiplies u := by
  have hclosing : ∀ v, t.closing.multiplies v = t.multiplies v := by
    intro v
    cases t <;> cases v <;> rfl
  cases u with
  | var name =>
    refine ⟨leftParen, _, rfl, ?_⟩
    rw [hclosing]
    cases t with
    | number c => exact absurd rfl (h c name rfl)
    | _ => rfl
  | _ => exact ⟨_, _, rfl, hclosing _⟩

/-- Where products are meant between the tokens that are put in and their neighbours. -/
theorem withProducts_flatMap (ts : List Token) :
    withProducts (ts.flatMap (instances lexeme)) = spliced lexeme (withProducts ts) := by
  induction ts with
  | nil => rfl
  | cons t ts ih =>
    cases ts with
    | nil => cases t <;> rfl
    | cons u ts =>
      obtain ⟨us, hus⟩ := exists_withProducts u ts
      rw [hus] at ih
      rw [withProducts_cons, hus]
      by_cases hcoefficient : (∃ c, t = number c) ∧ ∃ name, u = var name
      · obtain ⟨⟨c, rfl⟩, name, rfl⟩ := hcoefficient
        show _ :: _ :: withProducts ((var name :: ts).flatMap (instances lexeme)) = _
        rw [ih]
        rfl
      · have halone : ∀ c name, t = number c → u ≠ var name :=
          fun c name ht hu => hcoefficient ⟨⟨c, ht⟩, name, hu⟩
        obtain ⟨v, vs, hvs, hmul⟩ := exists_instances lexeme t u ts halone
        rw [List.flatMap_cons, hvs, withProducts_instances_append, hmul, ← hvs, ih]
        split
        · have hfactor : ∀ c name rest, t = number c →
              operator .mul :: u :: us ≠ var name :: rest := nofun
          exact (spliced_cons hfactor).symm
        · refine (spliced_cons fun c name rest ht heq => ?_).symm
          exact halone c name ht (List.cons.inj heq).1

/-- A text with a literal in parentheses in the place of every variable reads as the tokens with
these put in. -/
theorem ofText_instantiate {text : String} (hlexeme : IsLiteral lexeme.toList)
    (h : scan none text.toList = .ok ts) (hts : Separate ts) :
    ofText (instantiate lexeme text) = .ok (spliced lexeme (withProducts ts)) := by
  have hscan := ((lexes_of_scan h).substitute hlexeme hts).scan_eq
  rw [ofText, instantiate, String.toList_ofList, hscan, ← withProducts_flatMap]
  rfl

end SymbolicAlgebra.Token
