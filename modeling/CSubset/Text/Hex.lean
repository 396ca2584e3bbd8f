/-!
# Hexadecimal digits

Numerals of a fixed width, padded with zeros on the left.
-/

namespace CSubset.Text

/-- The case of the digits above nine. -/
inductive HexCase where
  | lower
  | upper

def HexCase.digit : HexCase → Nat → Char
  | .lower, d => if d < 10 then Char.ofNat ('0'.toNat + d) else Char.ofNat ('a'.toNat + (d - 10))
  | .upper, d => if d < 10 then Char.ofNat ('0'.toNat + d) else Char.ofNat ('A'.toNat + (d - 10))

/-- The last `width` hexadecimal digits of `n`. -/
def hexDigits (hexCase : HexCase) : (width : Nat) → (n : Nat) → List Char
  | 0, _ => []
  | width + 1, n => hexDigits hexCase width (n / 16) ++ [hexCase.digit (n % 16)]

end CSubset.Text
