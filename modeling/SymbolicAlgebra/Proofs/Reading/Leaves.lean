import SymbolicAlgebra.Proofs.Binary64.Unsigned
import SymbolicAlgebra.Proofs.Expr.Subtree
import SymbolicAlgebra.Proofs.Reading.RoundTrip
import SymbolicAlgebra.Proofs.Rewrite.Steps
import SymbolicAlgebra.Proofs.Token.Lossless

/-!
# The leaves of a tree that is read

What stands in a text limits what stands in the tree: a number and a coefficient
are literals, which have no sign, a variable is one letter, a function is called
by a word, and a constant has the value of its name. Only an exponent may be
negative.

Results:
* `Token.spelled_of_ofText`: the names in the tokens of a text.
* `Derives.literate`: the leaves of the tree that a phrase spells.
* `Expr.literate_of_ofText`: the leaves of a tree that is read.
-/
namespace SymbolicAlgebra

open Binary64 Text

/-! ## Names in tokens -/

namespace Token

/-- Letters, digits and underscores, of which the first is no digit. -/
def IsWord (name : String) : Prop :=
  ∃ c cs, name.toList = c :: cs ∧ startsWord c = true ∧ ∀ d ∈ cs, continuesWord d = true

/-- The name in a token is what it looks like. -/
def Spelled : Token → Prop
  | .function name => IsWord name
  | .var name => IsVariable name
  | _ => True

variable {previous : Option Token} {c : Char} {cs rest word : List Char} {t : Token}
variable {ts : List Token}

theorem spelled_of_ofSign? (h : ofSign? previous c = some t) : Spelled t := by
  unfold ofSign? at h
  split at h
  · cases h; trivial
  · cases h; trivial
  · cases h; trivial
  · split at h <;> cases h <;> trivial
  · obtain ⟨op, -, rfl⟩ := Option.map_eq_some_iff.mp h
    trivial

theorem isVariable_of_ofWord {name : String} (h : ofWord word rest = .ok (.var name)) :
    IsVariable name := by
  simp only [ofWord] at h
  split at h
  · next hvar =>
    simp only [Bool.and_eq_true, Option.isNone_iff_eq_none, beq_iff_eq] at hvar
    obtain ⟨⟨hname, hlength⟩, hletters⟩ := hvar
    obtain ⟨c, rfl⟩ := List.length_eq_one_iff.mp hlength
    cases h
    exact ⟨c, String.toList_ofList, by simpa using hletters, hname⟩
  split at h
  · cases h
  · split at h <;> cases h

/-- The names in the tokens of a scan. -/
theorem Lexes.spelled (h : Lexes previous cs ts) : ∀ t ∈ ts, Spelled t := by
  induction h with
  | nil => exact List.forall_mem_nil _
  | blank _ _ ih => exact ih
  | sign hc _ ih => exact List.forall_mem_cons.mpr ⟨spelled_of_ofSign? hc, ih⟩
  | number _ _ ih => exact List.forall_mem_cons.mpr ⟨trivial, ih⟩
  | @word previous c t rest ts hc hword _ ih =>
    refine List.forall_mem_cons.mpr ⟨?_, ih⟩
    have hlexeme := lexeme_of_ofWord hword
    cases t with
    | function name => exact ⟨c, _, hlexeme, hc, List.all_eq_true.mp List.all_takeWhile⟩
    | var name => exact isVariable_of_ofWord hword
    | _ => trivial

/-- The names in the tokens of a text. -/
theorem spelled_of_ofText {text : String} (h : ofText text = .ok ts) : ∀ t ∈ ts, Spelled t := by
  obtain ⟨raw, hlexes, rfl⟩ := lexes_of_ofText h
  intro t ht
  by_cases hmul : t = operator .mul
  · subst hmul
    trivial
  · exact hlexes.spelled t (mem_withProducts ht hmul)

end Token

/-! ## Leaves -/

namespace Expr

/-- What a node of a tree that is read meets: numbers and coefficients have no sign, and names are
what they look like. -/
def LiterateNode : Expr Float → Prop
  | .number x => Unsigned x.toModel.unpack
  | .monomial m => Unsigned m.coefficient.toModel.unpack ∧ Token.IsVariable m.var
  | .call name _ => Token.IsWord name
  | .constant name x => ∃ c : NamedConstant, name = c.name ∧ x = c.value
  | .negate _ | .binary _ _ _ => True

/-- Every node of a tree is as one that is read. -/
def Literate (t : Expr Float) : Prop := ∀ s ∈ t.subtrees, LiterateNode s

end Expr

theorem Coefficient.unsigned {cs : List Token} {c : Float} (h : Coefficient cs c) :
    Unsigned c.toModel.unpack := by
  cases h with
  | one => exact rfl
  | number lexeme => exact unsigned_literalValue lexeme

/-- The leaves of the tree that a phrase spells. -/
theorem Derives.literate {p : Phrase} {ts rest : List Token} {e : Expr Float}
    (h : Derives p ts e rest) (hts : ∀ t ∈ ts, t.Spelled) : e.Literate := by
  induction h with
  | product _ ih | power _ ih | signed _ ih | primary _ ih | monomial _ ih => exact ih hts
  | additive _ _ _ ihl ihr | multiplicative _ _ _ ihl ihr | raised _ _ ihl ihr =>
    obtain ⟨hl, hr⟩ := List.forall_mem_append.mp hts
    exact Expr.forall_subtrees_binary.mpr ⟨trivial, ihl hl, ihr (List.forall_mem_cons.mp hr).2⟩
  | negated _ ih =>
    exact Expr.forall_subtrees_negate.mpr ⟨trivial, ih (List.forall_mem_cons.mp hts).2⟩
  | number lexeme => exact Expr.forall_subtrees_number.mpr (unsigned_literalValue lexeme)
  | constant c => exact Expr.forall_subtrees_constant.mpr ⟨c, rfl, rfl⟩
  | parenthesized _ ih =>
    exact ih (List.forall_mem_append.mp (List.forall_mem_cons.mp hts).2).1
  | emptyCall name =>
    exact Expr.forall_subtrees_call.mpr ⟨(List.forall_mem_cons.mp hts).1, List.forall_mem_nil _⟩
  | closedCall _ ih => exact ih (List.forall_mem_append.mp hts).1
  | firstArgument name _ ih =>
    obtain ⟨hname, htail⟩ := List.forall_mem_cons.mp hts
    exact Expr.forall_subtrees_call.mpr
      ⟨hname, List.forall_mem_singleton.mpr (ih (List.forall_mem_cons.mp htail).2)⟩
  | nextArgument _ _ ihcall ih =>
    obtain ⟨hcall, hnext⟩ := List.forall_mem_append.mp hts
    obtain ⟨hname, hargs⟩ := Expr.forall_subtrees_call.mp (ihcall hcall)
    exact Expr.forall_subtrees_call.mpr ⟨hname, List.forall_mem_append.mpr
      ⟨hargs, List.forall_mem_singleton.mpr (ih (List.forall_mem_cons.mp hnext).2)⟩⟩
  | «variable» hc _ =>
    have hvar := List.forall_mem_singleton.mp (List.forall_mem_append.mp hts).2
    exact Expr.forall_subtrees_monomial.mpr ⟨hc.unsigned, hvar⟩
  | variablePower hc _ =>
    have hvar := (List.forall_mem_cons.mp (List.forall_mem_append.mp hts).2).1
    exact Expr.forall_subtrees_monomial.mpr ⟨hc.unsigned, hvar⟩

/-! ## Whole texts -/

theorem Equation.literate_of_side {ts : List Token} {e : Expr Float} (h : side ts = .ok e)
    (hts : ∀ t ∈ ts, t.Spelled) : e.Literate := by
  unfold side at h
  split at h
  · cases h
  · exact (Expr.derives_of_ofTokens h).literate hts

/-- The leaves of a tree that is read from a text. -/
theorem Expr.literate_of_ofText {text : String} {t : Expr Float} (h : Expr.ofText text = .ok t) :
    t.Literate := by
  obtain ⟨ts, hts, h⟩ := except_bind_eq_ok.mp h
  have hspelled := Token.spelled_of_ofText hts
  split at h
  · obtain ⟨e, he, h⟩ := except_bind_eq_ok.mp h
    cases h
    unfold Equation.ofTokens at he
    split at he
    · cases he
    · simp only [except_bind_eq_ok] at he
      obtain ⟨lhs, hl, rhs, hr, he⟩ := he
      cases he
      exact forall_subtrees_binary.mpr ⟨trivial,
        Equation.literate_of_side hl fun t ht => hspelled t ((List.takeWhile_sublist _).subset ht),
        Equation.literate_of_side hr fun t ht =>
          hspelled t ((List.dropWhile_sublist _).subset (List.mem_of_mem_drop ht))⟩
    · cases he
  · exact (derives_of_ofTokens h).literate hspelled

end SymbolicAlgebra
