import SymbolicAlgebra.Text.Blank
import SymbolicAlgebra.Text.Letter
import SymbolicAlgebra.Text.Number
import SymbolicAlgebra.Token.Basic
/-!
# Reading tokens from a text

`Token.scan` reads the tokens that are written, and `Token.withProducts` adds the products that are
meant between operands side by side. `Token.ofText` does both.

* `splitNumber_append`: the part of a literal that is read and the part left make up the text.
-/
namespace SymbolicAlgebra.Token

open Text

/-- What continues a literal after its first digit, and what follows the literal: a run of digits,
and a point with another run if a digit follows the point. -/
def splitNumber (cs : List Char) : List Char × List Char :=
  let whole := cs.takeWhile Char.isDigit
  match cs.dropWhile Char.isDigit with
  | '.' :: d :: rest =>
    if d.isDigit then
      (whole ++ '.' :: d :: rest.takeWhile Char.isDigit, rest.dropWhile Char.isDigit)
    else (whole, '.' :: d :: rest)
  | rest => (whole, rest)

/-- Whether a word can begin with the character. -/
def startsWord (c : Char) : Bool := isLetter c || c == '_'

/-- Whether a word can go on with the character. -/
def continuesWord (c : Char) : Bool := isLetter c || isNumber c || c == '_'

/-- Whether an opening parenthesis comes next, blanks apart. -/
def opensCall (cs : List Char) : Bool := (cs.dropWhile isBlank).head? == some '('

/-- The token that a word is, given what follows it. A single letter that names no constant is a
variable even before a parenthesis, so that `x(x+1)` is a product. -/
def ofWord (word rest : List Char) : Except SyntaxError Token :=
  let name := String.ofList word
  let known := NamedConstant.ofName? name
  if known.isNone && word.length == 1 && word.all isLetter then .ok (var name)
  else if opensCall rest then .ok (function name)
  else match known with
    | some c => .ok (constant c)
    | none => .error (.unknownConstant name)

/-- Whether a minus sign after the given token is a negation. -/
def expectsOperand : Option Token → Bool
  | none => true
  | some negation | some (operator _) | some leftParen | some comma => true
  | _ => false

/-- The token of a single character, given the token before it. -/
def ofSign? (previous : Option Token) (c : Char) : Option Token :=
  match c with
  | '(' => some leftParen
  | ')' => some rightParen
  | ',' => some comma
  | '-' => some (if expectsOperand previous then negation else operator .sub)
  | c => (Operator.ofChar? c).map operator

theorem length_dropWhile_le (p : Char → Bool) (cs : List Char) :
    (cs.dropWhile p).length ≤ cs.length := (List.dropWhile_sublist p).length_le

theorem splitNumber_append (cs : List Char) : (splitNumber cs).1 ++ (splitNumber cs).2 = cs := by
  have h := List.takeWhile_append_dropWhile (p := Char.isDigit) (l := cs)
  unfold splitNumber
  split
  · next d rest hd =>
    rw [hd] at h
    split
    · simpa [List.takeWhile_append_dropWhile] using h
    · simpa using h
  · exact h

theorem length_splitNumber_le (cs : List Char) : (splitNumber cs).2.length ≤ cs.length := by
  have h := congrArg List.length (splitNumber_append cs)
  simp only [List.length_append] at h
  omega

/-- Reads the tokens of a text that follows the token `previous`. -/
def scan (previous : Option Token) : List Char → Except SyntaxError (List Token)
  | [] => .ok []
  | c :: rest =>
    if isBlank c then scan previous rest
    else match ofSign? previous c with
      | some t => (scan (some t) rest).map (t :: ·)
      | none =>
        if c.isDigit then
          let t := number (String.ofList (c :: (splitNumber rest).1))
          (scan (some t) (splitNumber rest).2).map (t :: ·)
        else if startsWord c then
          match ofWord (c :: rest.takeWhile continuesWord) (rest.dropWhile continuesWord) with
          | .ok t => (scan (some t) (rest.dropWhile continuesWord)).map (t :: ·)
          | .error e => .error e
        else .error (.invalidToken (String.singleton c))
termination_by cs => cs.length
decreasing_by
  · simp
  · simp
  · have := length_splitNumber_le rest
    simp only [List.length_cons]; omega
  · have := length_dropWhile_le continuesWord rest
    simp only [List.length_cons]; omega

/-- Puts a product between two tokens wherever one is meant. -/
def withProducts : List Token → List Token
  | t :: u :: rest =>
    if t.multiplies u then t :: operator .mul :: withProducts (u :: rest)
    else t :: withProducts (u :: rest)
  | ts => ts

/-- The tokens of a text, the products that are only meant included. -/
def ofText (text : String) : Except SyntaxError (List Token) :=
  (scan none text.toList).map withProducts

end SymbolicAlgebra.Token
