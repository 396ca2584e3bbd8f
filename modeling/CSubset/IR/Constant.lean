/-!
# Integer constants

Constants are written in decimal, unless hexadecimal is the plainer form: a number that is long in
decimal and varied there, and that has few different digits in hexadecimal (`0x8000`, `0xFFFF`).
-/

namespace CSubset.IR.Constant

def hexText (n : Nat) : List Char := (Nat.toDigits 16 n).map Char.toUpper

def decimalText (n : Nat) : List Char := Nat.toDigits 10 n

/-- The number of different digits. -/
def variety (digits : List Char) : Nat := digits.eraseDups.length

/-- How many different digits a hexadecimal form of this length may have. -/
def varietyLimit (length : Nat) : Nat := if length ≤ 6 then 2 else 3

/-- Whether `n` is written in hexadecimal: it has at least four digits there, few of them different,
and the share of different digits is larger in decimal by more than a fifth. -/
def prefersHex (n : Nat) : Bool :=
  let hex := hexText n
  let dec := decimalText n
  0x1000 ≤ n && variety hex ≤ varietyLimit hex.length &&
    5 * variety hex * dec.length + dec.length * hex.length < 5 * variety dec * hex.length

def text (value : Int32) : String :=
  match value.toInt with
  | .ofNat n => if prefersHex n then "u0x" ++ String.ofList (hexText n) else toString n
  | .negSucc n => s!"-{n + 1}"

end CSubset.IR.Constant
