/-!
# Decimal numerals

Reading and recognising numerals written with the ASCII digits.
-/

namespace CSubset.Text

def asciiDigit? (c : Char) : Option Nat :=
  if '0' ≤ c ∧ c ≤ '9' then some (c.toNat - '0'.toNat) else none

/-- The value of a non-empty run of ASCII digits. -/
def decimalValue? : List Char → Option Nat
  | [] => none
  | cs => cs.foldlM (fun n c => (asciiDigit? c).map (10 * n + ·)) 0

/-- The value of an optional sign and a non-empty run of ASCII digits. -/
def signedDecimal? : List Char → Option Int
  | '+' :: cs => (decimalValue? cs).map Int.ofNat
  | '-' :: cs => (decimalValue? cs).map (- Int.ofNat ·)
  | cs => (decimalValue? cs).map Int.ofNat

end CSubset.Text
