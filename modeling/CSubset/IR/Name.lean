import CSubset.Text.Decimal
import CSubset.Text.Hex

/-!
# Names in the printed representation

A name is written bare if it has only letters, digits and a few signs and is not a number, so that
it cannot be taken for the number of a result; otherwise it is quoted. Within quotes the bytes
outside printable ASCII, the quote and the backslash are written as two hexadecimal digits.
-/

namespace CSubset.IR.Name

def isBareByte (b : UInt8) : Bool :=
  let c := Char.ofNat b.toNat
  c.isAlphanum || c = '$' || c = '.' || c = '_' || c = '-'

def escapeByte (b : UInt8) : List Char :=
  let c := Char.ofNat b.toNat
  if 0x20 ≤ b ∧ b ≤ 0x7E ∧ c ≠ '\x22' ∧ c ≠ '\\' then [c]
  else '\\' :: Text.hexDigits .upper 2 b.toNat

def quoted (name : String) : String :=
  String.ofList ('\x22' :: name.toUTF8.toList.flatMap escapeByte ++ ['\x22'])

/-- Whether a name could be taken for the number of a result, which has 64 bits. -/
def isNumber (name : String) : Bool :=
  match Text.decimalValue? name.toList with
  | some n => n < 0x10000000000000000
  | none => false

def text (name : String) : String :=
  if isNumber name || !name.toUTF8.toList.all isBareByte then quoted name else name

/-- A name as it is shown in messages, and handed on when a parameter is renamed: a signed number is
put in quotes, an empty name is the number zero. -/
def shown (name : String) : String :=
  if name.isEmpty then "0"
  else match Text.signedDecimal? name.toList with
    | some n =>
      if -0x8000000000000000 ≤ n ∧ n < 0x8000000000000000 then s!"\"{n}\"" else name
    | none => name

end CSubset.IR.Name
