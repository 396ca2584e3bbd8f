import CSubset.Text.Stretches

/-!
# Blanks

The characters that separate tokens: the ASCII blanks, the line separators and the space characters
of Unicode.
-/

namespace CSubset.Text

/-- The stretches of the blanks. -/
def blankStretches : List Nat :=
  [9, 5, 18, 1, 100, 1, 26, 1, 5599, 1, 2431, 11, 29, 2, 5, 1, 47, 1, 4000, 1]

def isBlank (c : Char) : Bool := inStretches false blankStretches c.toNat

end CSubset.Text
