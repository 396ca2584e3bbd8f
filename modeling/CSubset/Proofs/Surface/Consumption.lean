import CSubset.Proofs.Success
import CSubset.Proofs.Surface.Acceptance
import CSubset.Proofs.Token.Partition

/-!
# How much of a text is read

The reader says that a text is at its end when it has come to an end mark, or to the real end. What
it leaves behind is the text from the first end mark on that no literal escapes (`fromMark`). No
step changes this part, since each one passes over a gap and a token in front of it
(`Cursor.next_cases`). All in front of it are gaps and tokens, and a text that is parsed has all of
these tokens in its program (`text_read_up_to_mark`). So a text can be parsed although a part of it
has never been looked at (`cutOff_read_up_to_mark`).
-/

namespace CSubset

open Grammar (Derives)

/-! ## What is left behind -/

theorem eq_beforeMark_append_fromMark (text : List Char) :
    text = beforeMark .code text ++ fromMark text ∧
      (fromMark text = [] ∨ ∃ more, fromMark text = endMark :: more) := by
  obtain ⟨rest, htext, hrest⟩ := exists_eq_beforeMark_append .code text
  have hfrom : fromMark text = rest := by
    rw [fromMark]
    nth_rewrite 2 [htext]
    exact List.drop_left
  rw [hfrom]
  exact ⟨htext, hrest⟩

/-- Reading on does not change what is left behind. -/
theorem fromMark_eq_of_append {text raw rest : List Char} (htext : text = raw ++ rest)
    (hpass : beforeMark .code text = raw ++ beforeMark .code rest) :
    fromMark text = fromMark rest := by
  rw [fromMark, hpass, htext, List.length_append, ← List.drop_drop, List.drop_left, fromMark]

namespace Cursor

variable {c : Cursor}

/-- The cursor after `k` tokens. -/
def after : Nat → Cursor → Cursor
  | 0, c => c
  | k + 1, c => after k c.next.2

theorem fromMark_skipGap (c : Cursor) : fromMark c.skipGap.rest = fromMark c.rest := by
  obtain ⟨gap, hrest, hpass, -⟩ := c.exists_skipGap
  exact (fromMark_eq_of_append hrest hpass).symm

/-- What one step can do: it reports the end where nothing is in front of the mark, or it passes
over a token. -/
theorem next_cases (c : Cursor) :
    (c.next.2 = c.skipGap ∧ beforeMark .code c.skipGap.rest = []) ∨
      (c.next.1.kind ≠ .eof ∧ ∃ raw, c.skipGap.rest = raw ++ c.next.2.rest ∧
        beforeMark .code c.skipGap.rest = raw ++ beforeMark .code c.next.2.rest) := by
  cases hfirst : Lexeme.first? c.skipGap.rest with
  | none =>
    have hnext : c.next.2 = c.skipGap := by rw [next, hfirst]
    exact .inl ⟨hnext, Lexeme.beforeMark_of_first?_none hfirst⟩
  | some l =>
    obtain ⟨gap, -, -, -, hstart⟩ := c.exists_skipGap
    obtain ⟨raw, rest, htext, -, hdrop, hpass, hpiece⟩ := Lexeme.covers_of_first? hfirst hstart
    have hkind : c.next.1.kind = l.kind := by rw [next, hfirst]
    have hrest : c.next.2.rest = rest := by rw [next, hfirst, rest_advanceBy, hdrop]
    rw [hkind, hrest]
    exact .inr ⟨hpiece.kind_ne_eof, raw, htext, hpass⟩

theorem fromMark_next (c : Cursor) : fromMark c.next.2.rest = fromMark c.rest := by
  rw [← fromMark_skipGap c]
  rcases c.next_cases with ⟨hnext, -⟩ | ⟨-, raw, htext, hpass⟩
  · rw [hnext]
  · exact (fromMark_eq_of_append htext hpass).symm

theorem fromMark_after (k : Nat) (c : Cursor) : fromMark (after k c).rest = fromMark c.rest := by
  induction k generalizing c with
  | zero => rfl
  | succ k ih => rw [after, ih, fromMark_next]

/-- The end is reported only when nothing else is left. -/
theorem rest_of_eof (h : c.next.1.kind = .eof) : c.next.2.rest = fromMark c.rest := by
  rcases c.next_cases with ⟨hnext, hnone⟩ | ⟨hkind, -⟩
  · rw [← fromMark_skipGap c, hnext, fromMark, hnone]
    rfl
  · exact absurd h hkind

theorem token_eq_next (k : Nat) (c : Cursor) : token k c = (after k c).next.1 := by
  induction k generalizing c with
  | zero => rfl
  | succ k ih => exact ih c.next.2

theorem after_succ (k : Nat) (c : Cursor) : after (k + 1) c = (after k c).next.2 := by
  induction k generalizing c with
  | zero => rfl
  | succ k ih => exact ih c.next.2

end Cursor

/-- The text in front of the first end mark that no literal escapes is gaps and tokens, and each
time the end is reported, the rest is all that is left. If the text is parsed, these tokens are the
program. -/
theorem text_read_up_to_mark (text : List Char) :
    text = beforeMark .code text ++ fromMark text ∧
      (fromMark text = [] ∨ ∃ more, fromMark text = endMark :: more) ∧
    (∀ k, (Cursor.token k (Cursor.start text)).kind = .eof →
      (Cursor.after (k + 1) (Cursor.start text)).rest = fromMark text) ∧
    Partition (beforeMark .code text) (TokenStream.ofText text).described ∧
    ∀ generation path file, File.parse generation path text = .ok file →
      Derives .program (TokenStream.ofText text).tokens := by
  obtain ⟨htext, hrest⟩ := eq_beforeMark_append_fromMark text
  refine ⟨htext, hrest, fun k hk => ?_, TokenStream.partition_beforeMark (Cursor.start text), ?_⟩
  -- the step that reports the end leaves what was left behind from the start
  · rw [Cursor.token_eq_next] at hk
    rw [Cursor.after_succ, Cursor.rest_of_eof hk, Cursor.fromMark_after]
    rfl
  · intro generation path file hparse
    obtain ⟨program, hread, -⟩ := File.parse_eq_ok_iff.mp hparse
    exact Grammar.derives_program_iff.mpr ⟨_, (Surface.Program.ofText_eq_ok_iff.mp hread).1⟩

/-- Two declarations with an end mark between them. -/
def cutOff : List Char := "int x;\x00 int y;".toList

/-- Only the first declaration is read. -/
theorem cutOff_read_up_to_mark :
    ∃ file, File.parse 0 "a.c" cutOff = .ok file ∧ fromMark cutOff = endMark :: " int y;".toList ∧
      (TokenStream.ofText cutOff).described = [(.kwInt, "int".toList), (.identifier, ['x']),
        (.semicolon, [';'])] ∧
      Partition "int x;".toList (TokenStream.ofText cutOff).described ∧
      Derives .program (TokenStream.ofText cutOff).tokens ∧
      (Cursor.after 4 (Cursor.start cutOff)).rest = fromMark cutOff := by
  have hcheck : ((File.parse 0 "a.c" cutOff).toOption.any fun _ => true) = true := by decide +kernel
  obtain ⟨file, hparse, -⟩ := exists_ok_of_any hcheck
  have hread : beforeMark .code cutOff = "int x;".toList := by decide +kernel
  have heof : (Cursor.token 3 (Cursor.start cutOff)).kind = .eof := by decide +kernel
  obtain ⟨-, -, hleft, hpartition, hprogram⟩ := text_read_up_to_mark cutOff
  rw [hread] at hpartition
  exact ⟨file,
    hparse, by decide +kernel, by decide +kernel, hpartition,
    hprogram 0 "a.c" file hparse, hleft 3 heof⟩

end CSubset
