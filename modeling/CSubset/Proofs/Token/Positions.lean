import CSubset.Proofs.Token.Partition
import Mathlib.Data.List.DropRight

/-!
# Where tokens stand

The position of a token is told by the text in front of it: its line by the line breaks in that
text, its column by the characters behind the last of them (`Pos.behind`). The reader never looks at
that text again; it counts as it goes, and what it counts is right as long as there is more to read
(`Cursor.Counts`). So a text is gaps and tokens, each token at the position behind all that stands
in front of it (`Placed`), and tokens that follow one another stand at later and later positions
(`token_positions_exact`).
-/

namespace CSubset

namespace Pos

/-- The position of what follows `front`. -/
def behind (front : List Char) : Pos :=
  ⟨1 + front.count '\n', 1 + (front.rtakeWhile (· ≠ '\n')).length⟩

/-- On an earlier line, or further to the left on the same line. -/
def Before (p q : Pos) : Prop := p.line < q.line ∨ (p.line = q.line ∧ p.col < q.col)

theorem Before.trans {p q r : Pos} (hpq : p.Before q) (hqr : q.Before r) : p.Before r := by
  unfold Before at *
  omega

theorem behind_break (front : List Char) :
    behind (front ++ ['\n']) = ⟨(behind front).line + 1, 1⟩ := by
  simp only [behind, List.count_append, List.rtakeWhile_concat]
  simp
  omega

theorem behind_concat {c : Char} (hc : c ≠ '\n') (front : List Char) :
    behind (front ++ [c]) = ⟨(behind front).line, (behind front).col + 1⟩ := by
  simp only [behind, List.count_append, List.rtakeWhile_concat]
  simp [hc]
  omega

/-- More text in front means a later position. -/
theorem before_behind (front : List Char) {more : List Char} (hmore : more ≠ []) :
    (behind front).Before (behind (front ++ more)) := by
  have hstep (front : List Char) (c : Char) : (behind front).Before (behind (front ++ [c])) := by
    by_cases hc : c = '\n'
    · rw [hc, behind_break]
      exact .inl (Int.lt_succ _)
    · rw [behind_concat hc]
      exact .inr ⟨rfl, Int.lt_succ _⟩
  induction more generalizing front with
  | nil => exact absurd rfl hmore
  | cons c more ih =>
    cases more with
    | nil => exact hstep front c
    | cons d more =>
      rw [List.append_cons]
      exact (hstep front c).trans (ih (front ++ [c]) (List.cons_ne_nil d more))

end Pos

/-! ## The reader counts right -/

namespace Cursor

variable {c : Cursor} {front : List Char}

/-- The cursor that has read `front` is at the right position. At the end of a text it may not be: a
line break there does not begin a new line. -/
def Counts (c : Cursor) (front : List Char) : Prop := c.rest ≠ [] → c.pos = Pos.behind front

theorem counts_start (text : List Char) : (start text).Counts [] := fun _ => rfl

theorem Counts.advance (h : c.Counts front) : c.advance.Counts (front ++ c.rest.take 1) := by
  intro hmore
  rw [rest_advance] at hmore
  obtain ⟨rest, pos⟩ := c
  cases rest with
  | nil => exact absurd rfl hmore
  | cons d rest =>
    obtain rfl : pos = Pos.behind front := h (List.cons_ne_nil d rest)
    cases rest with
    | nil => exact absurd rfl hmore
    | cons next rest =>
      show (Cursor.advance ⟨d :: next :: rest, Pos.behind front⟩).pos = Pos.behind (front ++ [d])
      by_cases hd : d = '\n'
      · rw [hd, Pos.behind_break]
        rfl
      · rw [Pos.behind_concat hd, Cursor.advance]
        simp [hd]

theorem Counts.advanceBy (n : Nat) (h : c.Counts front) :
    (c.advanceBy n).Counts (front ++ c.rest.take n) := by
  induction n generalizing c front with
  | zero => simpa [Cursor.advanceBy] using h
  | succ n ih =>
    have hread : c.rest.take (n + 1) = c.rest.take 1 ++ (c.rest.drop 1).take n := by
      rw [Nat.add_comm, List.take_add]
    rw [Cursor.advanceBy, hread, ← List.append_assoc, ← rest_advance]
    exact ih h.advance

end Cursor

/-! ## Placed tokens -/

/-- Behind `front`, the text goes on with `rest`, which is gaps and these tokens. Each token is at
the position behind all that stands in front of it. -/
inductive Placed : (front rest : List Char) → List Token → Prop
  | stop {front gap rest : List Char} (hgap : gapWidth .blank (gap ++ rest) = gap.length)
    (hrest : Lexeme.first? rest = none) : Placed front (gap ++ rest) []
  | token {front gap raw rest : List Char} {l : Lexeme} {tokens : List Token}
    (hgap : gapWidth .blank (gap ++ (raw ++ rest)) = gap.length)
      (hfirst : Lexeme.first? (raw ++ rest) = some l)
    (hraw : (raw ++ rest).take l.width = raw) (hmore : Placed (front ++ gap ++ raw) rest tokens) :
    Placed front (gap ++ (raw ++ rest))
      (⟨l.kind, String.ofList l.text, Pos.behind (front ++ gap)⟩ :: tokens)

theorem gapWidth_le_length (state : Gap) (text : List Char) :
    gapWidth state text ≤ text.length := by
  fun_induction gapWidth state text <;> simp only [List.length_cons, List.length_nil] <;> omega

theorem Lexeme.width_pos_of_first? {text : List Char} {l : Lexeme}
    (h : Lexeme.first? text = some l) : 0 < l.width := by
  cases text with
  | nil => cases h
  | cons c rest =>
    rw [Lexeme.first?] at h
    split at h
    next => cases h
    next =>
      rw [← Option.some.inj h]
      exact Lexeme.width_startingWith_pos c rest

namespace TokenStream

theorem placed_ofCursor {c : Cursor} {front : List Char} (h : c.Counts front) :
    Placed front c.rest (ofCursor c).tokens := by
  let gap := c.rest.take (gapWidth .blank c.rest)
  have hskip : c.skipGap.rest = c.rest.drop (gapWidth .blank c.rest) := Cursor.rest_advanceBy _ c
  have hrest : c.rest = gap ++ c.skipGap.rest := by rw [hskip, List.take_append_drop]
  have hgap : gapWidth .blank (gap ++ c.skipGap.rest) = gap.length := by
    rw [← hrest, List.length_take, Nat.min_eq_left (gapWidth_le_length _ _)]
  have hcounts : c.skipGap.Counts (front ++ gap) := h.advanceBy _
  cases hfirst : Lexeme.first? c.skipGap.rest with
  | none =>
    rw [ofCursor_of_none hfirst, hrest]
    exact .stop hgap hfirst
  | some l =>
    have hne : c.skipGap.rest ≠ [] := by
      intro hnil
      rw [hnil] at hfirst
      cases hfirst
    have hnext : (c.skipGap.advanceBy l.width).rest = c.skipGap.rest.drop l.width :=
      Cursor.rest_advanceBy _ _
    have hsplit : c.skipGap.rest = c.skipGap.rest.take l.width ++
        (c.skipGap.advanceBy l.width).rest := by
      rw [hnext, List.take_append_drop]
    have hwidth := Lexeme.width_pos_of_first? hfirst
    have hmore := placed_ofCursor (hcounts.advanceBy l.width)
    have hfront := hfirst
    rw [hsplit] at hgap hfront
    rw [ofCursor_of_some hfirst, hcounts hne, hrest, hsplit]
    exact .token hgap hfront (by rw [← hsplit]) hmore
termination_by c.rest.length
decreasing_by
  have hle := c.length_rest_skipGap_le
  have hpos := List.length_pos_iff.mpr hne
  rw [hnext, List.length_drop]
  omega

end TokenStream

namespace Placed

variable {front rest : List Char} {tokens : List Token}

theorem pos_eq (h : Placed front rest tokens) :
    ∀ t ∈ tokens, ∃ more, t.pos = Pos.behind (front ++ more) := by
  induction h with
  | stop => exact nofun
  | token _ _ _ _ ih =>
    refine List.forall_mem_cons.mpr ⟨⟨_, rfl⟩, fun t ht => ?_⟩
    obtain ⟨more, hpos⟩ := ih t ht
    exact ⟨_, by rw [hpos, List.append_assoc, List.append_assoc]⟩

theorem pairwise (h : Placed front rest tokens) :
    tokens.Pairwise fun t u => t.pos.Before u.pos := by
  induction h with
  | stop => exact .nil
  | @token front gap raw rest l tokens _ hfirst hraw hmore ih =>
    refine .cons (fun u hu => ?_) ih
    -- a token has characters of its own, and the next one stands behind them
    have hne : raw ≠ [] := by
      rintro rfl
      have hwidth := Lexeme.width_pos_of_first? hfirst
      rcases List.take_eq_nil_iff.mp hraw with h | h
      · omega
      · rw [h] at hfirst
        cases hfirst
    obtain ⟨more, hpos⟩ := hmore.pos_eq u hu
    rw [hpos, List.append_assoc]
    exact Pos.before_behind (front ++ gap) (List.append_ne_nil_of_left_ne_nil hne more)

end Placed

/-- Every token of a text is at the position that the text in front of it gives: its line is one
more than the line breaks there, its column one more than the characters behind the last line break.
So of two tokens the first is at the earlier position. The tokens are those that are read one by one
before the end. -/
theorem token_positions_exact (text : List Char) :
    Placed [] text (TokenStream.ofText text).tokens ∧
      (TokenStream.ofText text).tokens.Pairwise (fun t u => t.pos.Before u.pos) ∧
      ∀ k, Cursor.token k (Cursor.start text) =
        ((TokenStream.ofText text).tokens[k]?).getD (TokenStream.ofText text).endToken := by
  have hplaced : Placed [] text (TokenStream.ofText text).tokens :=
    TokenStream.placed_ofCursor (Cursor.counts_start text)
  exact ⟨hplaced, hplaced.pairwise, fun k => Cursor.token_eq k _⟩

/-- A comment of two lines, a literal with an escaped line break, and one that the end of its line
cuts off. -/
example : (TokenStream.ofText "a /*\n*/ \x22\\\n\x22 b\n\x22c\nd".toList).tokens.map (·.pos) =
    [⟨1, 1⟩, ⟨2, 4⟩, ⟨3, 3⟩, ⟨4, 1⟩, ⟨5, 1⟩] := by decide +kernel

end CSubset
