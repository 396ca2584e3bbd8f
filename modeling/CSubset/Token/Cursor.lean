import CSubset.Position

/-!
# Cursors

A cursor is the part of a text that has not been read yet, with the position of its first character.
Reading a line break moves to the next line only if more text follows; reading at the end of the
text still moves one column to the right.
-/

namespace CSubset

structure Cursor where
  rest : List Char
  pos : Pos
  deriving DecidableEq, Repr

namespace Cursor

/-- The cursor before the first character. -/
def start (text : List Char) : Cursor := ⟨text, ⟨1, 1⟩⟩

/-- Read one character. -/
def advance (c : Cursor) : Cursor :=
  match c.rest with
  | '\n' :: next :: rest => ⟨next :: rest, ⟨c.pos.line + 1, 1⟩⟩
  | rest => ⟨rest.drop 1, ⟨c.pos.line, c.pos.col + 1⟩⟩

/-- Read `n` characters. -/
def advanceBy : Nat → Cursor → Cursor
  | 0, c => c
  | n + 1, c => advanceBy n c.advance

@[simp] theorem rest_advance (c : Cursor) : c.advance.rest = c.rest.drop 1 := by
  unfold advance
  split <;> simp_all

@[simp] theorem rest_advanceBy (n : Nat) (c : Cursor) : (c.advanceBy n).rest = c.rest.drop n := by
  induction n generalizing c with
  | zero => simp [advanceBy]
  | succ n ih => simp [advanceBy, ih]

end Cursor

end CSubset
