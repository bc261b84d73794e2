import SymbolicAlgebra.Text.Ranges
/-!
# Blank characters

Characters that separate tokens: the bidirectional classes of white space and of the separators of
paragraphs and segments, and the space separators.
-/
namespace SymbolicAlgebra.Text

/-- Code points of the blank characters. -/
def blankRanges : List (Nat × Nat) :=
  [(0x9, 0xD), (0x1C, 0x20), (0x85, 0x85), (0xA0, 0xA0), (0x1680, 0x1680), (0x2000, 0x200A),
   (0x2028, 0x2029), (0x202F, 0x202F), (0x205F, 0x205F), (0x3000, 0x3000)]

/-- Whether a character is blank. -/
def isBlank (c : Char) : Bool := inRanges c.toNat blankRanges

end SymbolicAlgebra.Text
