import CSubset.Token.Lexeme

/-!
# Where the reader stops

The reader takes an end mark for the end of the text, wherever it stands, unless an escape in a
literal covers it. The part of a text in front of the first such mark is all that is ever read
(`beforeMark`). It can be told without cutting the text into tokens, character by character: only
comments and literals have to be kept apart from the rest (`Zone`).
-/

namespace CSubset

variable {c : Char} {rest : List Char}

/-- What a character is part of. -/
inductive Zone where
  | code
  | lineComment
  | blockComment
  | literal (quote : Char)
  /-- This character is passed over whatever it is, and then the zone is `next`. -/
  | passing (next : Zone)

namespace Zone

variable {c : Char}

/-- The zone behind a character. Where two characters belong together, the one that follows
decides. -/
def after : Zone → Char → (following : Option Char) → Zone
  | .code, c, following =>
    if c = '/' ∧ following = some '/' then .lineComment
    -- the star that opens the comment cannot close it
    else if c = '/' ∧ following = some '*' then .passing .blockComment
    else if c = '\x22' ∨ c = '\x27' then .literal c
    else .code
  | .lineComment, c, _ => if c = '\n' then .code else .lineComment
  | .blockComment, c, following =>
    if c = '*' ∧ following = some '/' then .passing .code else .blockComment
  | .literal quote, c, _ =>
    if c = '\\' then .passing (.literal quote) else if c = quote ∨ c = '\n' then .code
      else .literal quote
  | .passing next, _, _ => next

/-- The reader stops at an end mark that is not escaped. -/
def stopsAt : Zone → Char → Bool
  | .passing _, _ => false
  | _, c => c == endMark

theorem stopsAt_of_ne (hc : c ≠ endMark) (zone : Zone) : zone.stopsAt c = false := by
  cases zone with
  | passing => rfl
  | code | lineComment | blockComment | literal => exact beq_false_of_ne hc

theorem eq_of_stopsAt {zone : Zone} (h : zone.stopsAt c = true) : c = endMark := by
  by_cases hc : c = endMark
  · exact hc
  · rw [stopsAt_of_ne hc] at h
    cases h

end Zone

/-- The characters in front of the first end mark that is not escaped in a literal; all of them if
there is none. -/
def beforeMark : Zone → List Char → List Char
  | _, [] => []
  | zone, c :: rest => if zone.stopsAt c then [] else c :: beforeMark (zone.after c rest.head?) rest

/-- The rest of the text, from that mark on. -/
def fromMark (text : List Char) : List Char := text.drop (beforeMark .code text).length

theorem beforeMark_cons (zone : Zone) (c : Char) (rest : List Char) :
    beforeMark zone (c :: rest) = if zone.stopsAt c then [] else c :: beforeMark
      (zone.after c rest.head?) rest :=
  rfl

theorem beforeMark_cons_of_ne (hc : c ≠ endMark) (zone : Zone) (rest : List Char) :
    beforeMark zone (c :: rest) = c :: beforeMark (zone.after c rest.head?) rest := by
  rw [beforeMark_cons, Zone.stopsAt_of_ne hc]
  rfl

/-- The text is cut at an end mark, or not at all. -/
theorem exists_eq_beforeMark_append (zone : Zone) (text : List Char) :
    ∃ rest, text = beforeMark zone text ++ rest ∧ (rest = [] ∨ ∃ more, rest = endMark :: more) := by
  induction text generalizing zone with
  | nil => exact ⟨[], rfl, .inl rfl⟩
  | cons c text ih =>
    rw [beforeMark_cons]
    split
    next hstop => exact ⟨c :: text, rfl, .inr ⟨text, by rw [Zone.eq_of_stopsAt hstop]⟩⟩
    next =>
      obtain ⟨rest, htext, hrest⟩ := ih (zone.after c text.head?)
      refine ⟨rest, ?_, hrest⟩
      rw [List.cons_append, ← htext]

/-- A text without an end mark is read to its end. -/
theorem beforeMark_eq_self {text : List Char} (hmark : endMark ∉ text) (zone : Zone) :
    beforeMark zone text = text := by
  obtain ⟨rest, htext, rfl | ⟨more, rfl⟩⟩ := exists_eq_beforeMark_append zone text
  · rw [List.append_nil] at htext
    exact htext.symm
  · exact absurd (htext ▸ List.mem_append_right _ List.mem_cons_self) hmark

/-! ## Characters that are passed over -/

/-- A character that begins neither a comment nor a literal, and that is no end mark. -/
def IsPlain (c : Char) : Prop := c ≠ endMark ∧ c ≠ '/' ∧ c ≠ '\x22' ∧ c ≠ '\x27'

instance (c : Char) : Decidable (IsPlain c) := inferInstanceAs (Decidable (_ ∧ _))

/-- The characters of a class that has none of the others are plain. -/
theorem isPlain_of_class {p : Char → Bool}
    (hp : p endMark = false ∧ p '/' = false ∧ p '\x22' = false ∧ p '\x27' = false)
    (hc : p c = true) : IsPlain c := by
  have hne {d : Char} (hd : p d = false) : c ≠ d := by
    rintro rfl
    rw [hc] at hd
    cases hd
  exact ⟨hne hp.1, hne hp.2.1, hne hp.2.2.1, hne hp.2.2.2⟩

theorem beforeMark_code_cons (hc : IsPlain c) (rest : List Char) :
    beforeMark .code (c :: rest) = c :: beforeMark .code rest := by
  obtain ⟨hmark, hslash, hdouble, hsingle⟩ := hc
  have hafter (following : Option Char) : Zone.code.after c following = .code :=
    (if_neg fun h => hslash h.1).trans
      ((if_neg fun h => hslash h.1).trans (if_neg (not_or.mpr ⟨hdouble, hsingle⟩)))
  rw [beforeMark_cons_of_ne hmark, hafter]

theorem beforeMark_code_append {raw : List Char} (hraw : ∀ c ∈ raw, IsPlain c) (rest : List Char) :
    beforeMark .code (raw ++ rest) = raw ++ beforeMark .code rest := by
  induction raw with
  | nil => rfl
  | cons c raw ih =>
    obtain ⟨hc, hraw⟩ := List.forall_mem_cons.mp hraw
    rw [List.cons_append, beforeMark_code_cons hc, ih hraw, List.cons_append]

/-- A slash that does not begin a comment is passed over. -/
theorem beforeMark_code_slash (hline : ∀ more, rest ≠ '/' :: more)
    (hblock : ∀ more, rest ≠ '*' :: more) :
    beforeMark .code ('/' :: rest) = '/' :: beforeMark .code rest := by
  have hnot {c : Char} (h : ∀ more, rest ≠ c :: more) : ¬('/' = '/' ∧ rest.head? = some c) := by
    rintro ⟨-, hhead⟩
    obtain ⟨more, hrest⟩ := List.head?_eq_some_iff.mp hhead
    exact h more hrest
  have hafter : Zone.code.after '/' rest.head? = .code :=
    (if_neg (hnot hline)).trans (if_neg (hnot hblock))
  rw [beforeMark_cons_of_ne (by decide), hafter]

theorem beforeMark_lineComment_cons (hmark : c ≠ endMark) (hline : c ≠ '\n') (rest : List Char) :
    beforeMark .lineComment (c :: rest) = c :: beforeMark .lineComment rest := by
  have hafter : Zone.lineComment.after c rest.head? = .lineComment := if_neg hline
  rw [beforeMark_cons_of_ne hmark, hafter]

theorem beforeMark_blockComment_cons (hmark : c ≠ endMark)
    (hclose : ∀ more, c = '*' → rest ≠ '/' :: more) :
    beforeMark .blockComment (c :: rest) = c :: beforeMark .blockComment rest := by
  have hafter : Zone.blockComment.after c rest.head? = .blockComment := by
    refine if_neg fun h => ?_
    obtain ⟨more, hrest⟩ := List.head?_eq_some_iff.mp h.2
    exact hclose more h.1 hrest
  rw [beforeMark_cons_of_ne hmark, hafter]

theorem beforeMark_literal_cons {quote : Char} (hmark : c ≠ endMark) (hslash : c ≠ '\\')
    (hquote : c ≠ quote) (hline : c ≠ '\n') (rest : List Char) :
    beforeMark (.literal quote) (c :: rest) = c :: beforeMark (.literal quote) rest := by
  have hafter : (Zone.literal quote).after c rest.head? = .literal quote :=
    (if_neg hslash).trans (if_neg (not_or.mpr ⟨hquote, hline⟩))
  rw [beforeMark_cons_of_ne hmark, hafter]

/-- A literal goes no further than its line. -/
theorem beforeMark_literal_line (quote : Char) (rest : List Char) :
    beforeMark (.literal quote) ('\n' :: rest) = '\n' :: beforeMark .code rest := by
  have hafter : (Zone.literal quote).after '\n' rest.head? = .code := if_pos (.inr rfl)
  rw [beforeMark_cons_of_ne (by decide), hafter]

end CSubset
