/-!
# Lenient UTF-8

Reads bytes as characters. A byte that does not start a well-formed sequence is read alone, as the
replacement character, and reading goes on at the next byte. Overlong forms, surrogates, code points
beyond the last one and cut-off sequences are all ill-formed.
-/

namespace CSubset.Text.Utf8

/-- Stands for a byte that belongs to no character. -/
def replacement : Char := '�'

def isContinuation (b : UInt8) : Bool := 0x80 ≤ b && b < 0xC0

/-- What a leading byte announces. -/
structure Lead where
  /-- How many continuation bytes follow. -/
  extra : Nat
  /-- The bits of the code point that the leading byte holds. -/
  bits : Nat
  /-- The least code point that needs this many bytes. -/
  least : Nat

def lead? (b : UInt8) : Option Lead :=
  let n := b.toNat
  if n < 0x80 then some ⟨0, n, 0⟩
  else if n < 0xC0 then none
  else if n < 0xE0 then some ⟨1, n - 0xC0, 0x80⟩
  else if n < 0xF0 then some ⟨2, n - 0xE0, 0x800⟩
  else if n < 0xF8 then some ⟨3, n - 0xF0, 0x10000⟩
  else none

/-- The character whose sequence is `b` and the first bytes of `rest`, with the number of these. -/
def sequence? (b : UInt8) (rest : List UInt8) : Option (Char × Nat) := do
  let lead ← lead? b
  let tail := rest.take lead.extra
  guard (tail.length = lead.extra ∧ tail.all isContinuation)
  let n := tail.foldl (fun n b => 64 * n + (b.toNat - 0x80)) lead.bits
  guard (lead.least ≤ n ∧ n.isValidChar)
  return (Char.ofNat n, lead.extra)

/-- What a string of bytes consists of. -/
inductive Piece where
  | char (c : Char)
  /-- A byte that belongs to no character. -/
  | stray (b : UInt8)

def pieces : List UInt8 → List Piece
  | [] => []
  | b :: rest =>
    match sequence? b rest with
    | some (c, extra) => .char c :: pieces (rest.drop extra)
    | none => .stray b :: pieces rest
termination_by bytes => bytes.length
decreasing_by all_goals simp +arith

def Piece.read : Piece → Char
  | .char c => c
  | .stray _ => replacement

def decode (bytes : List UInt8) : List Char := (pieces bytes).map Piece.read

/-- The bytes of a text. -/
def encode (text : String) : List UInt8 := text.toUTF8.data.toList

end CSubset.Text.Utf8
