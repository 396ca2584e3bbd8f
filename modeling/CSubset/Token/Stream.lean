import CSubset.Token.Cursor
import CSubset.Token.Lexeme

/-!
# Token streams

The tokens of a text with their positions. The end of the text is not a token of the stream; its
position is kept beside the tokens, because errors at the end are reported there. Tokens can also be
read one by one; then the end is a token, and it comes again as often as one reads on.
-/

namespace CSubset

structure TokenStream where
  /-- The tokens before the end of the text. -/
  tokens : List Token
  /-- The position of the end. -/
  stop : Pos
  deriving DecidableEq, Repr

/-- The cursor at the next token. -/
def Cursor.skipGap (c : Cursor) : Cursor := c.advanceBy (gapWidth .blank c.rest)

theorem Cursor.length_rest_skipGap_le (c : Cursor) : c.skipGap.rest.length ≤ c.rest.length := by
  simp [skipGap]

namespace Cursor

/-- The next token, and the cursor behind it. At the end there is only the token that marks it. -/
def next (c : Cursor) : Token × Cursor :=
  match Lexeme.first? c.skipGap.rest with
  | none => (⟨.eof, "", c.skipGap.pos⟩, c.skipGap)
  | some l => (⟨l.kind, String.ofList l.text, c.skipGap.pos⟩, c.skipGap.advanceBy l.width)

/-- The token after `k` others. -/
def token : Nat → Cursor → Token
  | 0, c => c.next.1
  | k + 1, c => token k c.next.2

/-- The first `n` tokens, read one after the other. -/
def tokens : Nat → Cursor → List Token
  | 0, _ => []
  | n + 1, c => c.next.1 :: tokens n c.next.2

end Cursor

namespace TokenStream

-- The equation `h` is used by `decreasing_by`, which the linter does not see.
set_option linter.unusedVariables false in
/-- The tokens from a cursor on. -/
def ofCursor (c : Cursor) : TokenStream :=
  match h : Lexeme.first? c.skipGap.rest with
  | none => ⟨[], c.skipGap.pos⟩
  | some lexeme =>
    let more := ofCursor (c.skipGap.advanceBy lexeme.width)
    ⟨⟨lexeme.kind, String.ofList lexeme.text, c.skipGap.pos⟩ :: more.tokens, more.stop⟩
termination_by c.rest.length
decreasing_by
  have hle := c.length_rest_skipGap_le
  cases hrest : c.skipGap.rest with
  | nil => simp [hrest, Lexeme.first?] at h
  | cons d rest =>
    have hpos := Lexeme.width_startingWith_pos d rest
    simp only [hrest, Lexeme.first?] at h
    split at h
    · simp at h
    · simp only [Option.some.injEq] at h
      simp only [hrest, List.length_cons] at hle
      simp [hrest, ← h]
      omega

def ofText (text : List Char) : TokenStream := ofCursor (Cursor.start text)

/-- The token that marks the end. -/
def endToken (s : TokenStream) : Token := ⟨.eof, "", s.stop⟩

end TokenStream

end CSubset
