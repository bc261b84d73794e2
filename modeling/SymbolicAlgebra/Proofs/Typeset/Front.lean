import Mathlib.Data.List.Forall2
import SymbolicAlgebra.Proofs.Typeset.Factors

/-!
# What a typeset text tells

The text of a factor is a numeral or none, a word or none, and what belongs to no
word: an exponent, the arguments of a call or a fraction. Each ends where the next
begins, so a text determines the row of factors that it is of, up to what a factor
leaves out. One thing is in the way: a number like `2e-10` is written as `2e` less
`10` is.

Results:
* `Front.append_inj`: a factor is told from what follows it, unless one merges with
  that into a number.
* `Front.alike`: what factors that begin one text have in common.
* `alike_of_chars`: rows with one text are alike, factor by factor.
-/
namespace SymbolicAlgebra

open Binary64
open Token (Stops stops_cons append_inj_of_stops startsWord continuesWord IsVariable IsWord)

namespace Typeset

/-! ## The front of a factor -/

/-- A number whose text is nothing but figures. -/
def Figured (x : Float) : Prop := ∃ f : Decimal.Figures, (text x).toList = f.text

/-- The text of a factor taken apart: a numeral or nothing, a word or nothing, and what is not part
of a word. -/
inductive Front : Expr Float → List Char → List Char → List Char → Prop
  | number {x : Float} : Figured x → Front (.number x) (text x).toList [] []
  | monomial {m : Monomial Float} : Figured m.coefficient → IsVariable m.var →
      Front (.monomial m) (coefficientChars m.coefficient) m.var.toList (exponentChars m.exponent)
  | constant (k : NamedConstant) : Front (.constant k.name k.value) [] k.name.toList []
  | call {name : String} {args : List (Expr Float)} : IsWord name → (∀ e ∈ args, e.Literate) →
      Front (.call name args) [] name.toList ('(' :: (listed (args.map Expr.typeset) ++ [')']))
  | quotient {l r : Expr Float} : l.Literate → r.Literate →
      Front (.binary .div l r) [] [] (['\\', 'f', 'r', 'a', 'c'] ++
        ('\x7b' :: (l.typeset.toList ++ ['\x7d']) ++ '\x7b' :: (r.typeset.toList ++ ['\x7d'])))

variable {a b : Expr Float} {n w t n' w' t' rest after : List Char}

theorem Front.typeset (h : Front a n w t) : a.typeset.toList = n ++ (w ++ t) := by
  cases h with
  | number _ => simp [Expr.typeset, show ∀ x : Float, Numeral.text x = text x from fun _ => rfl]
  | monomial _ _ => exact typeset_monomial _
  | constant k => simp [Expr.typeset]
  | call _ _ => exact typeset_call _
  | quotient _ _ => exact typeset_div

/-- A text that a factor can stand before. -/
def Joined (rest : List Char) : Prop :=
  ∀ c after, rest = c :: after → c ∈ ['+', '-', '\\', '%']

theorem joined_chars (fs : List Factor) : Joined (chars fs) := by
  cases fs with
  | nil => exact fun _ _ h => nomatch h
  | cons f fs =>
    intro c after h
    obtain ⟨join, signs, atom⟩ := f
    cases join <;> cases (List.cons.inj h).1 <;> decide

/-- What may stand behind the word of a factor. -/
def Behind (rest : List Char) : Prop :=
  ∀ c after, rest = c :: after → c ∈ ['^', '(', '+', '-', '\\', '%']

theorem Joined.behind (h : Joined rest) : Behind rest := fun c after hrest =>
  List.mem_cons_of_mem _ (List.mem_cons_of_mem _ (h c after hrest))

theorem behind_cons {c : Char} (h : c ∈ ['^', '(', '+', '-', '\\', '%']) : Behind (c :: rest) := by
  intro d after hd
  cases hd
  exact h

theorem Behind.stops {p : Char → Bool} (hp : ['^', '(', '+', '-', '\\', '%'].all (!p ·) = true)
    (h : Behind rest) : Stops p rest := by
  intro c after hrest
  simpa using List.all_eq_true.mp hp c (h c after hrest)

namespace Front

theorem numeral (h : Front a n w t) : n = [] ∨ ∃ x, Figured x ∧ n = (text x).toList := by
  cases h with
  | @number x hx => exact .inr ⟨x, hx, rfl⟩
  | @monomial m hc hvar =>
    unfold coefficientChars
    split
    · exact .inl rfl
    · exact .inr ⟨m.coefficient, hc, rfl⟩
  | constant _ | call _ _ | quotient _ _ => exact .inl rfl

theorem figures (h : Front a n w t) : n = [] ∨ ∃ f : Decimal.Figures, n = f.text := by
  obtain hn | ⟨x, ⟨f, hf⟩, rfl⟩ := h.numeral
  · exact .inl hn
  · exact .inr ⟨f, hf⟩

theorem word (h : Front a n w t) : w = [] ∨ ∃ name, IsWord name ∧ w = name.toList := by
  cases h with
  | number _ | quotient _ _ => exact .inl rfl
  | monomial _ hvar => exact .inr ⟨_, isWord_of_isVariable hvar, rfl⟩
  | constant k => exact .inr ⟨_, isWord_constant k, rfl⟩
  | call hname _ => exact .inr ⟨_, hname, rfl⟩

theorem continues (h : Front a n w t) : ∀ c ∈ w, continuesWord c = true := by
  obtain rfl | ⟨name, hname, rfl⟩ := h.word
  · exact List.forall_mem_nil _
  · exact continuesWord_of_isWord hname

/-- What stands behind the word begins with a sign, and with no minus sign but one that joins. -/
theorem tail (h : Front a n w t) : t = [] ∨ ∃ c cs, t = c :: cs ∧ c ∈ ['^', '(', '\\'] := by
  cases h with
  | number _ | constant _ => exact .inl rfl
  | @monomial m _ _ =>
    unfold exponentChars
    split
    · exact .inl rfl
    · exact .inr ⟨_, _, rfl, by decide⟩
  | call _ _ | quotient _ _ => exact .inr ⟨_, _, rfl, by decide⟩

theorem behind (h : Front a n w t) (hrest : Joined rest) : Behind (t ++ rest) := by
  obtain rfl | ⟨c, cs, rfl, hc⟩ := h.tail
  · exact hrest.behind
  · refine behind_cons ?_
    have hall : ['^', '(', '\\'].all (['^', '(', '+', '-', '\\', '%'].contains ·) = true := by
      decide
    simpa using List.all_eq_true.mp hall c hc

/-- A numeral ends where the word begins, or what stands in its place. -/
theorem ends (h : Front a n w t) (hrest : Joined rest) : Decimal.Ends (w ++ (t ++ rest)) := by
  obtain rfl | ⟨name, ⟨c, cs, hname, hc, -⟩, rfl⟩ := h.word
  · exact (h.behind hrest).stops (by decide)
  · rw [hname]
    refine stops_cons ?_
    have hpoint : c ≠ '.' := by
      rintro rfl
      revert hc
      decide
    simp [Token.isDigit_of_startsWord hc, hpoint]

/-- A factor does not begin with a minus sign. -/
theorem head (h : Front a n w t) : ∃ c cs, n ++ (w ++ t) = c :: cs ∧ c ≠ '-' := by
  have hfigures : ∀ {x : Float} {cs : List Char}, Figured x →
      ∃ c ds, (text x).toList ++ cs = c :: ds ∧ c ≠ '-' := fun ⟨f, hf⟩ => by
    obtain ⟨c, cs, htext, hc⟩ := f.head
    refine ⟨c, _, by rw [hf, htext]; rfl, ?_⟩
    rintro rfl
    cases hc
  have hword : ∀ {name : String} {cs : List Char}, IsWord name →
      ∃ c ds, name.toList ++ cs = c :: ds ∧ c ≠ '-' := fun ⟨c, cs, hname, hc, _⟩ => by
    refine ⟨c, _, by rw [hname]; rfl, ?_⟩
    rintro rfl
    revert hc
    decide
  cases h with
  | number hx => exact hfigures hx
  | @monomial m hc hvar =>
    unfold coefficientChars
    split
    · exact hword (isWord_of_isVariable hvar)
    · exact hfigures hc
  | constant k => exact hword (isWord_constant k)
  | call hname _ => exact hword hname
  | quotient _ _ => exact ⟨_, _, rfl, by decide⟩

end Front

/-! ## Telling factors apart -/

/-- Numerals are told from what follows them, unless that is an exponent of figures. -/
theorem numeral_append_inj (hn : n = [] ∨ ∃ f : Decimal.Figures, n = f.text)
    (hn' : n' = [] ∨ ∃ f : Decimal.Figures, n' = f.text) (hrest : Decimal.Ends rest)
    (hafter : Decimal.Ends after) (h : n ++ rest = n' ++ after) :
    n = n' ∧ rest = after ∨
      (∃ ds, n ≠ [] ∧ n' = n ++ 'e' :: '-' :: ds ∧ rest = 'e' :: '-' :: (ds ++ after)) ∨
      ∃ ds, n' ≠ [] ∧ n = n' ++ 'e' :: '-' :: ds ∧ after = 'e' :: '-' :: (ds ++ rest) := by
  -- what ends a numeral is no numeral
  have hnone : ∀ (f : Decimal.Figures) {rest after : List Char}, Decimal.Ends rest →
      rest ≠ f.text ++ after := fun f {rest after} hrest heq => by
    obtain ⟨c, cs, htext, hc⟩ := f.head
    rw [htext] at heq
    have hstop := hrest c _ heq
    simp [hc] at hstop
  have hne : ∀ f : Decimal.Figures, f.text ≠ [] := fun f => by
    obtain ⟨c, cs, htext, -⟩ := f.head
    rw [htext]
    exact List.cons_ne_nil c cs
  obtain rfl | ⟨f, rfl⟩ := hn
  · obtain rfl | ⟨g, rfl⟩ := hn'
    · exact .inl ⟨rfl, h⟩
    · exact absurd h (hnone g hrest)
  · obtain rfl | ⟨g, rfl⟩ := hn'
    · exact absurd h.symm (hnone f hafter)
    · obtain ⟨hfg, heq⟩ | ⟨ds, htext, heq⟩ | ⟨ds, htext, heq⟩ :=
        Decimal.Figures.append_inj hrest hafter h
      · exact .inl ⟨congrArg _ hfg, heq⟩
      · exact .inr (.inl ⟨ds, hne f, htext, heq⟩)
      · exact .inr (.inr ⟨ds, hne g, htext, heq⟩)

/-- Behind a numeral, what looks like its exponent is the variable `e` and a minus sign. -/
theorem Front.monomial_of_exponent (h : Front a n w t) (hrest : Joined rest) (hn : n ≠ [])
    (heq : w ++ (t ++ rest) = 'e' :: '-' :: after) :
    ∃ m, a = .monomial m ∧ m.var = "e" ∧ a.typeset.toList = n ++ ['e'] := by
  have hletter : ∀ c ∈ ['e'], continuesWord c = true := List.all_eq_true.mp (by decide)
  obtain ⟨hw, htail⟩ := append_inj_of_stops h.continues hletter
    ((h.behind hrest).stops (by decide)) (stops_cons (by decide))
    (show w ++ (t ++ rest) = ['e'] ++ '-' :: after from heq)
  have ht : t = [] := by
    obtain ht | ⟨c, cs, rfl, hc⟩ := h.tail
    · exact ht
    · obtain rfl : c = '-' := (List.cons.inj htail).1
      exact absurd hc (by decide)
  have htypeset : a.typeset.toList = n ++ ['e'] := by rw [h.typeset, hw, ht, List.append_nil]
  cases h with
  | @monomial m _ _ => exact ⟨m, rfl, String.toList_inj.mp hw, htypeset⟩
  | number _ | quotient _ _ => cases hw
  | constant _ | call _ _ => exact absurd rfl hn

/-- A number whose text begins with that of a factor, goes past a minus sign behind it and is what
the row shows from there on, as `2e-10` is shown where `10` is taken from `2e`. -/
def Merges (a : Expr Float) (gs : List Factor) : Prop :=
  ∃ x : Float, (a.typeset ++ "-").toList <+: (text x).toList ∧
    (text x).toList <+: a.typeset.toList ++ chars gs

/-- No factor of a row merges with what stands behind it. -/
def Unmerged (fs : List Factor) : Prop :=
  ∀ before f after, fs = before ++ f :: after → ¬ Merges f.atom after

theorem Unmerged.tail {f : Factor} {fs : List Factor} (h : Unmerged (f :: fs)) : Unmerged fs :=
  fun before g after hfs => h (f :: before) g after (by rw [hfs]; rfl)

/-- A factor whose numeral goes on as an exponent in another factor merges with what follows. -/
theorem Front.merges {ds : List Char} {gs : List Factor} (h : Front a n w t)
    (h' : Front b n' w' t') (hn : n ≠ []) (hn' : n' = n ++ 'e' :: '-' :: ds)
    (hexponent : w ++ (t ++ chars gs) = 'e' :: '-' :: after)
    (heq : n ++ (w ++ (t ++ chars gs)) = n' ++ rest) : Merges a gs := by
  obtain ⟨-, -, -, htypeset⟩ := h.monomial_of_exponent (joined_chars gs) hn hexponent
  obtain rfl | ⟨x, -, rfl⟩ := h'.numeral
  · simp at hn'
  refine ⟨x, ⟨ds, ?_⟩, ⟨rest, ?_⟩⟩
  · rw [hn', String.toList_append, htypeset]
    simp
  · rw [← heq, h.typeset, List.append_assoc, List.append_assoc]

/-- What merges is a monomial of the variable `e`. -/
theorem Front.monomial_of_merges {gs : List Factor} (h : Front a n w t) (hmerges : Merges a gs) :
    ∃ m, a = .monomial m ∧ m.var = "e" := by
  obtain ⟨x, ⟨ds, hx⟩, -⟩ := hmerges
  obtain ⟨negative, cs, hspelled, htext⟩ := exists_spelled x
  obtain ⟨c, after, hhead, hc⟩ := h.head
  have hx : n ++ (w ++ (t ++ '-' :: ds)) = signed negative cs := by
    rw [← htext, ← hx, String.toList_append, h.typeset]
    simp
  obtain rfl : negative = false := by
    cases negative with
    | false => rfl
    | true =>
      have hcons : c :: (after ++ '-' :: ds) = '-' :: cs := by
        rw [← List.cons_append, ← hhead, List.append_assoc, List.append_assoc, hx]
        rfl
      exact absurd (List.cons.inj hcons).1 hc
  have hfigures : ∃ f : Decimal.Figures, cs = f.text := by
    have hminus : '-' ∈ cs := by
      have hx : n ++ (w ++ (t ++ '-' :: ds)) = cs := hx
      simp [← hx]
    generalize Datum.ofFloat x = d at hspelled
    generalize false = negative at hspelled
    cases hspelled with
    | undefined | infinite _ => exact absurd hminus (by decide)
    | finite f _ => exact ⟨f, rfl⟩
  obtain ⟨f, rfl⟩ := hfigures
  have hjoined : Joined ('-' :: ds) := fun c _ hc => by
    obtain rfl := (List.cons.inj hc).1
    decide
  obtain ⟨-, heq⟩ | ⟨ds, hn, -, heq⟩ | ⟨ds, -, -, heq⟩ :=
    numeral_append_inj h.figures (.inr ⟨f, rfl⟩) (h.ends hjoined) Token.stops_nil
      (hx.trans (List.append_nil _).symm)
  · simp at heq
  · obtain ⟨m, ha, hvar, -⟩ := h.monomial_of_exponent hjoined hn heq
    exact ⟨m, ha, hvar⟩
  · cases heq

/-- A factor is told from the rest of its row, unless it merges with that or the other does. -/
theorem Front.append_inj {fs gs : List Factor} (h : Front a n w t) (h' : Front b n' w' t')
    (hf : ¬ Merges a fs) (hg : ¬ Merges b gs)
    (heq : n ++ (w ++ (t ++ chars fs)) = n' ++ (w' ++ (t' ++ chars gs))) :
    n = n' ∧ w = w' ∧ t ++ chars fs = t' ++ chars gs := by
  have hfs := joined_chars fs
  have hgs := joined_chars gs
  obtain ⟨hn, htail⟩ | ⟨ds, hn, hn', htail⟩ | ⟨ds, hn, hn', htail⟩ :=
    numeral_append_inj h.figures h'.figures (h.ends hfs) (h'.ends hgs) heq
  · obtain ⟨hw, htail⟩ := append_inj_of_stops h.continues h'.continues
      ((h.behind hfs).stops (by decide)) ((h'.behind hgs).stops (by decide)) htail
    exact ⟨hn, hw, htail⟩
  · exact absurd (h.merges h' hn hn' htail heq) hf
  · exact absurd (h'.merges h hn hn' htail heq.symm) hg

/-! ## Alike factors -/

/-- What the text of a factor is of. -/
inductive Kind
  | number
  | monomial
  | constant
  | call
  | quotient
deriving DecidableEq

def kind : Expr Float → Kind
  | .number _ => .number
  | .monomial _ => .monomial
  | .constant _ _ => .constant
  | .call _ _ => .call
  | .negate _ | .binary _ _ _ => .quotient

/-- What a numeral, a word and what stands behind them are of. -/
def kindOf (n w behind : List Char) : Kind :=
  if w = [] then if n = [] then .quotient else .number
  else if behind.head? = some '(' then .call
  else if (NamedConstant.ofName? (String.ofList w)).isSome then .constant
  else .monomial

theorem Joined.head?_ne (h : Joined rest) : rest.head? ≠ some '(' := by
  cases rest with
  | nil => simp
  | cons c rest =>
    have hc := h c rest rfl
    intro hparen
    obtain rfl : c = '(' := by simpa using hparen
    exact absurd hc (by decide)

theorem head?_exponentChars {x : Float} (h : Joined rest) :
    (exponentChars x ++ rest).head? ≠ some '(' := by
  unfold exponentChars
  split
  · exact h.head?_ne
  · simp

/-- A numeral, a word and what stands behind them tell the kind of a factor. -/
theorem Front.kind_eq (h : Front a n w t) (hrest : Joined rest) :
    kindOf n w (t ++ rest) = kind a := by
  cases h with
  | @number x hx => simp [kindOf, kind, text_ne_nil x]
  | @monomial m _ hvar =>
    have hne := ne_nil_of_isWord (isWord_of_isVariable hvar)
    obtain ⟨c, -, -, hnone⟩ := hvar
    rw [kindOf, if_neg hne, if_neg (head?_exponentChars hrest), String.ofList_toList, hnone]
    rfl
  | constant k =>
    rw [kindOf, if_neg (ne_nil_of_isWord (isWord_constant k)), List.nil_append,
      if_neg hrest.head?_ne, String.ofList_toList, NamedConstant.ofName?_name]
    rfl
  | call hname _ =>
    rw [kindOf, if_neg (ne_nil_of_isWord hname), List.cons_append, List.head?_cons, if_pos rfl]
    rfl
  | quotient _ _ => rfl

/-- Numbers that are both left out, or are the same. -/
def Agree (x y : Float) : Prop :=
  Scalar.eqv x (Scalar.natural 1) = true ∧ Scalar.eqv y (Scalar.natural 1) = true ∨
    Scalar.same x y = true

/-- Factors that are written alike. -/
inductive Alike : Expr Float → Expr Float → Prop
  | number {x y : Float} : Scalar.same x y = true → Alike (.number x) (.number y)
  | monomial {m m' : Monomial Float} : Agree m.coefficient m'.coefficient → m.var = m'.var →
      Agree m.exponent m'.exponent → Alike (.monomial m) (.monomial m')
  | constant (name : String) (x : Float) : Alike (.constant name x) (.constant name x)
  | call {args args' : List (Expr Float)} (name : String) :
      args.map Expr.typeset = args'.map Expr.typeset → Alike (.call name args) (.call name args')
  | quotient {l r l' r' : Expr Float} : l.typeset = l'.typeset → r.typeset = r'.typeset →
      Alike (.binary .div l r) (.binary .div l' r')

/-- Factors that are joined alike, have as many minus signs and are written alike. -/
structure Factor.Alike (f g : Factor) : Prop where
  join : f.join = g.join
  signs : f.signs = g.signs
  atom : Typeset.Alike f.atom g.atom

theorem same_of_text {x y : Float} (h : (text x).toList = (text y).toList) :
    Scalar.same x y = true := by
  have hends : EndsNumber [] := ⟨Token.stops_nil, fun _ => nofun⟩
  exact (text_append_inj hends hends (congrArg (· ++ []) h)).1

theorem agree_of_coefficient {x y : Float} (h : coefficientChars x = coefficientChars y) :
    Agree x y := by
  unfold coefficientChars at h
  split at h <;> split at h
  · next hx hy => exact .inl ⟨hx, hy⟩
  · exact absurd h.symm (text_ne_nil y)
  · exact absurd h (text_ne_nil x)
  · exact .inr (same_of_text h)

/-- An exponent is told from what follows it. -/
theorem exponent_append_inj {x y : Float} (hrest : Joined rest) (hafter : Joined after)
    (h : exponentChars x ++ rest = exponentChars y ++ after) : Agree x y ∧ rest = after := by
  have hne : ∀ {rest ds : List Char}, Joined rest → rest ≠ '^' :: ds := fun h hrest =>
    absurd (h _ _ hrest) (by decide)
  unfold exponentChars at h
  split at h <;> split at h
  · next hx hy => exact ⟨.inl ⟨hx, hy⟩, h⟩
  · exact absurd h (hne hrest)
  · exact absurd h.symm (hne hafter)
  · simp only [List.cons_append, List.append_assoc, List.cons.injEq, true_and] at h
    obtain ⟨htext, h⟩ := (closed_number x).append_inj (closed_number y) closes_brace closes_brace h
    exact ⟨.inr (same_of_text htext), (List.cons.inj h).2⟩

theorem arguments_append_inj {args args' : List (Expr Float)} (h : ∀ e ∈ args, e.Literate)
    (h' : ∀ e ∈ args', e.Literate)
    (heq : listed (args.map Expr.typeset) ++ ')' :: rest =
      listed (args'.map Expr.typeset) ++ ')' :: after) :
    args.map Expr.typeset = args'.map Expr.typeset ∧ rest = after := by
  have htexts : ∀ {args : List (Expr Float)}, (∀ e ∈ args, e.Literate) →
      ∀ s ∈ args.map Expr.typeset, Closed s.toList ∧ s.toList ≠ [] := fun h =>
    List.forall_mem_map.mpr fun e he =>
      ⟨closed_typeset (h e he), typeset_ne_nil (h e he e e.self_mem_subtrees)⟩
  exact listed_append_inj (htexts h) (htexts h') heq

/-- Factors that begin one text are alike. -/
theorem Front.alike (h : Front a n w t) (h' : Front b n' w' t') (hrest : Joined rest)
    (hafter : Joined after) (hn : n = n') (hw : w = w') (heq : t ++ rest = t' ++ after) :
    Alike a b ∧ rest = after := by
  have hkind : kind a = kind b := by
    rw [← h.kind_eq hrest, ← h'.kind_eq hafter, hn, hw, heq]
  cases h with
  | number _ =>
    cases h' <;> cases hkind
    exact ⟨.number (same_of_text hn), heq⟩
  | monomial _ _ =>
    cases h' <;> cases hkind
    obtain ⟨hexponent, heq⟩ := exponent_append_inj hrest hafter heq
    exact ⟨.monomial (agree_of_coefficient hn) (String.toList_inj.mp hw) hexponent, heq⟩
  | constant k =>
    cases h' <;> cases hkind
    next k' =>
    have hname := congrArg NamedConstant.ofName? (String.toList_inj.mp hw)
    rw [NamedConstant.ofName?_name, NamedConstant.ofName?_name] at hname
    obtain rfl := Option.some.inj hname
    exact ⟨.constant _ _, heq⟩
  | call _ hargs =>
    cases h' <;> cases hkind
    next hargs' =>
    obtain rfl := String.toList_inj.mp hw
    simp only [List.cons_append, List.append_assoc, List.nil_append, List.cons.injEq,
      true_and] at heq
    obtain ⟨htexts, heq⟩ := arguments_append_inj hargs hargs' heq
    exact ⟨.call _ htexts, heq⟩
  | quotient hl hr =>
    cases h' <;> cases hkind
    next hl' hr' =>
    simp only [List.cons_append, List.append_assoc, List.nil_append, List.cons.injEq,
      true_and] at heq
    obtain ⟨hlt, heq⟩ := (closed_typeset hl).append_inj (closed_typeset hl') closes_brace
      closes_brace heq
    obtain ⟨hrt, heq⟩ := (closed_typeset hr).append_inj (closed_typeset hr') closes_brace
      closes_brace (List.cons.inj (List.cons.inj heq).2).2
    exact ⟨.quotient (String.toList_inj.mp hlt) (String.toList_inj.mp hrt),
      (List.cons.inj heq).2⟩

/-! ## Alike rows -/

theorem Join.chars_append_inj {j k : Join} (h : j.chars ++ rest = k.chars ++ after) :
    j = k ∧ rest = after := by
  cases j <;> cases k <;> simp_all [Join.chars]

/-- Minus signs are told from the factor behind them. -/
theorem signs_append_inj {k k' : Nat} (h : Front a n w t) (h' : Front b n' w' t')
    (heq : List.replicate k '-' ++ (a.typeset.toList ++ rest) =
      List.replicate k' '-' ++ (b.typeset.toList ++ after)) :
    k = k' ∧ a.typeset.toList ++ rest = b.typeset.toList ++ after := by
  have hstops : ∀ {a : Expr Float} {n w t rest : List Char}, Front a n w t →
      Stops (· == '-') (a.typeset.toList ++ rest) := fun h => by
    obtain ⟨c, cs, hhead, hc⟩ := h.head
    rw [h.typeset, hhead]
    exact stops_cons (by simpa using hc)
  have hminus : ∀ k, ∀ c ∈ List.replicate k '-', (c == '-') = true := fun k c hc => by
    simp [List.eq_of_mem_replicate hc]
  obtain ⟨hsigns, hrest⟩ := append_inj_of_stops (hminus k) (hminus k') (hstops h) (hstops h') heq
  exact ⟨by simpa using congrArg List.length hsigns, hrest⟩

variable {fs gs : List Factor}

/-- Rows with one text are alike, factor by factor, if nothing merges in them. -/
theorem alike_of_chars (hf : ∀ f ∈ fs, ∃ n w t, Front f.atom n w t)
    (hg : ∀ g ∈ gs, ∃ n w t, Front g.atom n w t) (hfs : Unmerged fs) (hgs : Unmerged gs)
    (h : chars fs = chars gs) : List.Forall₂ Factor.Alike fs gs := by
  have hne : ∀ (f : Factor) (fs : List Factor), chars (f :: fs) ≠ [] := fun f fs => by
    cases hjoin : f.join <;> simp [chars, hjoin, Join.chars]
  induction fs generalizing gs with
  | nil =>
    cases gs with
    | nil => exact .nil
    | cons g gs => exact absurd h.symm (hne g gs)
  | cons f fs ih =>
    cases gs with
    | nil => exact absurd h (hne f fs)
    | cons g gs =>
      rw [List.forall_mem_cons] at hf hg
      obtain ⟨⟨n, w, t, hfront⟩, hf⟩ := hf
      obtain ⟨⟨n', w', t', hfront'⟩, hg⟩ := hg
      obtain ⟨hjoin, h⟩ := Join.chars_append_inj h
      obtain ⟨hsigns, h⟩ := signs_append_inj hfront hfront' h
      rw [hfront.typeset, hfront'.typeset, List.append_assoc, List.append_assoc, List.append_assoc,
        List.append_assoc] at h
      obtain ⟨hn, hw, h⟩ := hfront.append_inj hfront' (hfs [] f fs rfl) (hgs [] g gs rfl) h
      obtain ⟨hatom, h⟩ := hfront.alike hfront' (joined_chars fs) (joined_chars gs) hn hw h
      exact .cons ⟨hjoin, hsigns, hatom⟩ (ih hf hg hfs.tail hgs.tail h)

end Typeset
end SymbolicAlgebra
