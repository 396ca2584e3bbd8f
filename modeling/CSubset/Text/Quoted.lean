import CSubset.Text.Hex
import CSubset.Text.Printable
import CSubset.Text.Utf8

/-!
# Quoted text in messages

A string of bytes between double quotes on one line. Printable characters stand for themselves; the
quote, the backslash, everything else and bytes that belong to no character are escaped, so that the
quoted form is unambiguous.
-/

namespace CSubset.Text.Quoted

/-- The letter that follows the backslash, for the characters that have a short escape. -/
def short? (c : Char) : Option Char :=
  match c.toNat with
  | 0x07 => some 'a'
  | 0x08 => some 'b'
  | 0x09 => some 't'
  | 0x0A => some 'n'
  | 0x0B => some 'v'
  | 0x0C => some 'f'
  | 0x0D => some 'r'
  | _ => none

/-- The escape by number: two, four or eight digits, whichever is the first to hold the code point.
Two digits are for ASCII only. -/
def numbered (n : Nat) : List Char :=
  if n < 0x80 then '\\' :: 'x' :: hexDigits .lower 2 n
  else if n < 0x10000 then '\\' :: 'u' :: hexDigits .lower 4 n
  else '\\' :: 'U' :: hexDigits .lower 8 n

def escape (c : Char) : List Char :=
  if c = '\x22' ∨ c = '\\' then ['\\', c]
  else if isPrintable c then [c]
  else match short? c with
    | some letter => ['\\', letter]
    | none => numbered c.toNat

def quote (text : String) : String :=
  String.ofList ('\x22' :: text.toList.flatMap escape ++ ['\x22'])

def escapePiece : Utf8.Piece → List Char
  | .char c => escape c
  | .stray b => '\\' :: 'x' :: hexDigits .lower 2 b.toNat

def quoteBytes (bytes : List UInt8) : String :=
  String.ofList ('\x22' :: (Utf8.pieces bytes).flatMap escapePiece ++ ['\x22'])

end CSubset.Text.Quoted
