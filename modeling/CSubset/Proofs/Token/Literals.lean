import CSubset.Proofs.Token.Partition

/-!
# Writing literals

Any characters can be the contents of a literal, if some of them are written as escapes
(`Literal.write`). Reading a literal undoes this character by character (`Literal.read_escape`), so
the token has exactly the contents that were written, and the reader goes on right behind the
closing quote (`written_literal_read_back`).
-/

namespace CSubset

namespace Literal

/-- How a character is written between these quotes. -/
def escape (quote c : Char) : List Char :=
  if c = '\\' ∨ c = quote then ['\\', c]
  else if c = '\n' then ['\\', 'n']
  else if c = '\t' then ['\\', 't']
  else if c = endMark then ['\\', '0']
  else [c]

/-- The literal with these contents. -/
def write (quote : Char) (contents : List Char) : List Char :=
  quote :: (contents.flatMap (escape quote) ++ [quote])

end Literal

section

variable {quote : Char} {kind : TokenKind}

/-! ## Contents -/

/-- A backslash and a quote stand for themselves after a backslash. -/
theorem Literal.unescape_self {c : Char} (hquote : TokenKind.quotedBy? quote = some kind)
    (hc : c = '\\' ∨ c = quote) : unescape c = c := by
  rcases hc with rfl | rfl
  · rfl
  · rcases TokenKind.quotedBy?_eq_some hquote with ⟨rfl, -⟩ | ⟨rfl, -⟩ <;> rfl

/-- A character that is written is read back. -/
theorem Literal.read_escape (hquote : TokenKind.quotedBy? quote = some kind) (c : Char)
    (rest : List Char) :
    read quote (escape quote c ++ rest) = (read quote rest).cons c (escape quote c).length := by
  unfold escape
  split
  next hc =>
    show (read quote rest).cons (unescape c) 2 = _
    rw [unescape_self hquote hc]
    rfl
  next hc =>
    have hslash : c ≠ '\\' := fun h => hc (.inl h)
    split
    next hline => rw [hline]; rfl
    next hline =>
      split
      next htab => rw [htab]; rfl
      next =>
        split
        next hend => rw [hend]; rfl
        next hend =>
          show read quote (c :: rest) = _
          rw [read, if_neg fun h => hc (.inr h), if_neg (not_or.mpr ⟨hend, hline⟩)]
          · rfl
          · exact fun h _ => hslash h
          · exact fun _ _ h _ => hslash h

/-- All that is written up to the closing quote is read back. -/
theorem Literal.read_write (hquote : TokenKind.quotedBy? quote = some kind)
    (contents rest : List Char) :
    read quote (contents.flatMap (escape quote) ++ quote :: rest) =
      ⟨true, contents, (contents.flatMap (escape quote)).length + 1⟩ := by
  induction contents with
  | nil => rcases TokenKind.quotedBy?_eq_some hquote with ⟨rfl, -⟩ | ⟨rfl, -⟩ <;> rfl
  | cons c contents ih =>
    rw [List.flatMap_cons, List.append_assoc, read_escape hquote, ih, cons, List.length_append]
    simp only [Nat.add_assoc]

/-! ## Tokens -/

/-- A literal stands at the front of its text, with no gap before it. -/
theorem first?_write (hquote : TokenKind.quotedBy? quote = some kind) (contents rest : List Char) :
    gapWidth .blank (Literal.write quote contents ++ rest) = 0 ∧
      Lexeme.first? (Literal.write quote contents ++ rest) =
        some ⟨kind, contents, (Literal.write quote contents).length⟩ := by
  have hread := Literal.read_write hquote contents rest
  have hwrite : Literal.write quote contents ++ rest =
      quote :: (contents.flatMap (Literal.escape quote) ++ quote :: rest) := by simp [Literal.write]
  have hlength : (Literal.write quote contents).length = 1 +
      ((contents.flatMap (Literal.escape quote)).length + 1) := by
    simp [Literal.write, Nat.add_comm]
  rw [hwrite, hlength]
  rcases TokenKind.quotedBy?_eq_some hquote with ⟨rfl, rfl⟩ | ⟨rfl, rfl⟩
  · refine ⟨rfl, ?_⟩
    show some (Lexeme.literal .string (Literal.read '\x22' _)) = _
    rw [hread]
    rfl
  · refine ⟨rfl, ?_⟩
    show some (Lexeme.literal .character (Literal.read '\x27' _)) = _
    rw [hread]
    rfl

end

/-- Kinds and texts of the tokens depend on the text that is left, not on the position. -/
theorem TokenStream.described_ofCursor {c d : Cursor} (h : c.rest = d.rest) :
    (ofCursor c).described = (ofCursor d).described := by
  induction c using ofCursor.induct generalizing d with
  | case1 c hnone =>
    have hskip : c.skipGap.rest = d.skipGap.rest := by simp [Cursor.skipGap, h]
    rw [described_of_none hnone, described_of_none (hskip ▸ hnone)]
  | case2 c l hsome ih =>
    have hskip : c.skipGap.rest = d.skipGap.rest := by simp [Cursor.skipGap, h]
    have hsome' : Lexeme.first? d.skipGap.rest = some l := hskip ▸ hsome
    have hmore := ih (d := d.skipGap.advanceBy l.width) (by simp [hskip])
    rw [described_of_some hsome, described_of_some hsome', hmore]

/-- A literal is read as one token with the contents that it was written for, and the reader goes on
behind the closing quote. -/
theorem written_literal_read_back {quote : Char} {kind : TokenKind}
    (hquote : TokenKind.quotedBy? quote = some kind) {contents following : List Char} {c : Cursor}
    (hc : c.rest = Literal.write quote contents ++ following) :
    c.next = (⟨kind, String.ofList contents, c.pos⟩, c.advanceBy
      (Literal.write quote contents).length) ∧
      c.next.2.rest = following ∧
      (TokenStream.ofCursor c).described = (kind, contents) ::
        (TokenStream.ofText following).described := by
  obtain ⟨hgap, hfirst⟩ := first?_write hquote contents following
  have hskip : c.skipGap = c := by rw [Cursor.skipGap, hc, hgap, Cursor.advanceBy]
  have hsome : Lexeme.first? c.skipGap.rest =
      some ⟨kind, contents, (Literal.write quote contents).length⟩ := by
    rw [hskip, hc, hfirst]
  have hnext : c.next =
      (⟨kind, String.ofList contents, c.pos⟩, c.advanceBy
      (Literal.write quote contents).length) := by
    rw [Cursor.next, hsome, hskip]
  have hrest : (c.advanceBy (Literal.write quote contents).length).rest = following := by
    rw [Cursor.rest_advanceBy, hc, List.drop_left]
  refine ⟨hnext, ?_, ?_⟩
  · rw [hnext, hrest]
  · rw [TokenStream.described_of_some hsome, hskip]
    exact congrArg _ (TokenStream.described_ofCursor hrest)

/-- Both quotes, a run of backslashes, a line break, a tab and the end mark, which is a character
like others here. -/
def awkward : List Char := "'\x22\\\\\n\t\x000".toList

/-- The escaped end mark is followed by a digit, and the literal by another one. -/
theorem awkward_read_back :
    TokenKind.quotedBy? '\x27' = some .character ∧
      Literal.write '\x27' awkward = "'\\'\x22\\\\\\\\\\n\\t\\00'".toList ∧
      (TokenStream.ofText (Literal.write '\x27' awkward ++ "\x22\x22".toList)).described =
        [(.character, awkward), (.string, [])] := by
  have hquote : TokenKind.quotedBy? '\x27' = some .character := rfl
  have hstart : (Cursor.start (Literal.write '\x27' awkward ++ "\x22\x22".toList)).rest =
      Literal.write '\x27' awkward ++ "\x22\x22".toList := rfl
  have hread := (written_literal_read_back hquote hstart).2.2
  exact ⟨hquote, by decide, hread.trans (by decide +kernel)⟩

end CSubset
