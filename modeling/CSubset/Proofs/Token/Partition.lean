import CSubset.Proofs.Token.EndMark
import CSubset.Token.Stream
import Mathlib.Data.List.Infix

/-!
# How a text falls into tokens

A text without the end mark is a gap, a token, a gap, and so on, up to a last gap (`Partition`).
Gaps consist of blanks and comments (`IsGap`). The characters of a token are told by what follows
them: a word or a number goes on as long as it can, a symbol is the longest one that fits, a literal
ends at its first bare quote (`IsToken`); where no token fits there is an illegal one (`IsIllegal`).
Nothing of the text is lost, and no character belongs to two tokens (`tokens_partition_text`). Of
any other text this is true as far as the reader comes (`TokenStream.partition_beforeMark`).
-/

namespace CSubset

open Lexeme (isWordStart isWordPart)

variable {text raw rest : List Char} {kind : TokenKind} {c quote : Char}
  {tokens : List (TokenKind × List Char)}

/-! ## Gaps

Blanks and comments, as far as they reach. -/

/-- The text is at its end, or at the end of a line. -/
def AtLineEnd (text : List Char) : Prop := text = [] ∨ ∃ more, text = '\n' :: more

/-- What closes a comment that can span several lines. -/
def commentEnd : List Char := ['*', '/']

/-- `gap` consists of blanks and comments, and `rest` follows it. -/
inductive IsGap : (gap rest : List Char) → Prop
  | nil {rest : List Char} : IsGap [] rest
  | blank {c : Char} {gap rest : List Char} (hc : Text.isBlank c = true) (hgap : IsGap gap rest) :
    IsGap (c :: gap) rest
  /-- The line break is not part of the comment. -/
  | lineComment {body gap rest : List Char} (hbody : '\n' ∉ body) (hend : AtLineEnd (gap ++ rest))
    (hgap : IsGap gap rest) :
    IsGap ('/' :: '/' :: (body ++ gap)) rest
  /-- The comment is closed as soon as it can be, but not by the star that opens it. -/
  | blockComment {body gap rest : List Char} (hbody : ¬commentEnd <:+: body ++ ['*'])
    (hgap : IsGap gap rest) :
    IsGap ('/' :: '*' :: (body ++ commentEnd ++ gap)) rest
  /-- Only at the end of a text. -/
  | unclosed {body : List Char} (hbody : ¬commentEnd <:+: body) : IsGap ('/' :: '*' :: body) []

/-- A blank or a comment stands in front. -/
def BeginsGap (text : List Char) : Prop :=
  (∃ c ∈ text.head?, Text.isBlank c = true) ∨ ['/', '/'] <+: text ∨ ['/', '*'] <+: text

/-- What is left of a gap, by where in it the reader is. -/
def IsGapFrom : Gap → (gap rest : List Char) → Prop
  | .blank, gap, rest => IsGap gap rest
  | .lineComment, gap, rest =>
    ∃ body more, gap = body ++ more ∧ '\n' ∉ body ∧ AtLineEnd (more ++ rest) ∧ IsGap more rest
  | .blockComment, gap, rest =>
    (∃ body more, gap = body ++ commentEnd ++ more ∧ ¬commentEnd <:+: body ++ ['*'] ∧
      IsGap more rest) ∨ (¬commentEnd <:+: gap ∧ rest = [])

/-- A comment is not closed by its first character if the first two characters do not close it. -/
theorem not_commentEnd_cons {cs : List Char} (hcs : ¬commentEnd <:+: cs)
    (hc : c = '*' → cs.head? ≠ some '/') : ¬commentEnd <:+: c :: cs := by
  intro h
  rcases List.infix_cons_iff.mp h with ⟨more, hprefix⟩ | hinfix
  · obtain ⟨rfl, rfl⟩ := List.cons.inj hprefix
    exact hc rfl rfl
  · exact hcs hinfix

theorem not_beginsGap_nil : ¬BeginsGap [] := by
  simp [BeginsGap]

theorem not_beginsGap_cons (hblank : ¬Text.isBlank c = true)
    (hline : ∀ more, c = '/' → text = '/' :: more → False)
    (hblock : ∀ more, c = '/' → text = '*' :: more → False) : ¬BeginsGap (c :: text) := by
  rintro (⟨d, hd, hd'⟩ | ⟨more, hmore⟩ | ⟨more, hmore⟩)
  · rw [List.head?_cons, Option.mem_some_iff] at hd
    exact hblank (hd ▸ hd')
  · obtain ⟨rfl, rfl⟩ := List.cons.inj hmore
    exact hline more rfl rfl
  · obtain ⟨rfl, rfl⟩ := List.cons.inj hmore
    exact hblock more rfl rfl

/-- Whether a gap stands in front can be told from less of the text. -/
theorem BeginsGap.append (h : BeginsGap text) (more : List Char) : BeginsGap (text ++ more) := by
  rcases h with ⟨c, hc, hblank⟩ | h | h
  · obtain ⟨rest, rfl⟩ := List.head?_eq_some_iff.mp hc
    exact .inl ⟨c, rfl, hblank⟩
  · exact .inr (.inl (h.trans (List.prefix_append text more)))
  · exact .inr (.inr (h.trans (List.prefix_append text more)))

theorem not_beginsGap_mark (text : List Char) : ¬BeginsGap (endMark :: text) :=
  not_beginsGap_cons (by decide) (fun _ h => absurd h (by decide)) (fun _ h => absurd h (by decide))

/-- The zone that a part of a gap is in. -/
def Gap.zone : Gap → Zone
  | .blank => .code
  | .lineComment => .lineComment
  | .blockComment => .blockComment

/-- The reader passes over a whole gap, and over nothing else. An end mark cuts a gap off as the end
of the text does. -/
theorem exists_gap (state : Gap) (text : List Char) :
    ∃ gap rest, text = gap ++ rest ∧ gap.length = gapWidth state text ∧
      beforeMark state.zone text = gap ++ beforeMark .code rest ∧
        IsGapFrom state gap (beforeMark .code rest) ∧
      ¬BeginsGap rest := by
  -- The states of the reader follow one another, so the induction is on its own recursion.
  fun_induction gapWidth state text with
  | case1 state =>
    refine ⟨[], [], rfl, rfl, ?_, ?_, not_beginsGap_nil⟩
    · cases state <;> rfl
    · cases state with
      | blank => exact .nil
      | lineComment => exact ⟨[], [], rfl, nofun, .inl rfl, .nil⟩
      | blockComment => exact .inr ⟨by decide, rfl⟩
  | case2 text ih =>
    obtain ⟨gap, rest, rfl, hwidth, hmark, ⟨body, more, rfl, hbody, hend, hgap⟩, hrest⟩ := ih
    exact ⟨'/' :: '/' :: (body ++ more), rest, rfl, by simp only [List.length_cons]; omega,
      congrArg (fun read => '/' :: '/' :: read) hmark, .lineComment hbody hend hgap, hrest⟩
  | case3 text ih =>
    obtain ⟨gap, rest, rfl, hwidth, hmark, hgap, hrest⟩ := ih
    refine ⟨'/' :: '*' :: gap, rest, rfl, by simp only [List.length_cons]; omega,
      congrArg (fun read => '/' :: '*' :: read) hmark, ?_, hrest⟩
    obtain ⟨body, more, rfl, hbody, hgap⟩ | ⟨hbody, hend⟩ := hgap
    · exact .blockComment hbody hgap
    · rw [hend]
      exact .unclosed hbody
  | case4 c text _ _ hc ih =>
    obtain ⟨gap, rest, rfl, hwidth, hmark, hgap, hrest⟩ := ih
    refine ⟨c :: gap, rest, rfl, by simp only [List.length_cons]; omega, ?_, .blank hc hgap, hrest⟩
    exact (beforeMark_code_cons (isPlain_of_class (by decide) hc) _).trans
      (congrArg (List.cons c) hmark)
  | case5 c text hline hblock hc =>
    exact ⟨[], c :: text, rfl, rfl, rfl, .nil, not_beginsGap_cons hc hline hblock⟩
  | case6 text =>
    exact ⟨[], endMark :: text, rfl, rfl, rfl, ⟨[], [], rfl, nofun, .inl rfl, .nil⟩,
      not_beginsGap_mark text⟩
  | case7 text hne ih =>
    obtain ⟨gap, rest, rfl, hwidth, hmark, hgap, hrest⟩ := ih
    refine ⟨'\n' :: gap, rest,
      rfl, by simp only [List.length_cons]; omega, congrArg (List.cons '\n') hmark, ?_, hrest⟩
    exact ⟨[], '\n' :: gap, rfl, nofun, .inr ⟨_, rfl⟩, .blank (by decide) hgap⟩
  | case8 c text hne hc ih =>
    obtain ⟨gap, rest, rfl, hwidth, hmark, ⟨body, more, rfl, hbody, hend, hgap⟩, hrest⟩ := ih
    refine ⟨c :: (body ++ more), rest, rfl, by simp only [List.length_cons]; omega, ?_, ?_, hrest⟩
    · exact (beforeMark_lineComment_cons hne hc _).trans (congrArg (List.cons c) hmark)
    · exact ⟨c :: body, more, rfl, List.not_mem_cons_of_ne_of_not_mem
        (Ne.symm hc) hbody, hend, hgap⟩
  | case9 text ih =>
    obtain ⟨gap, rest, rfl, hwidth, hmark, hgap, hrest⟩ := ih
    exact ⟨'*' :: '/' :: gap, rest, rfl, by simp only [List.length_cons]; omega,
      congrArg (fun read => '*' :: '/' :: read) hmark, .inl ⟨[], gap, rfl, by decide, hgap⟩, hrest⟩
  | case10 text =>
    exact ⟨[], endMark :: text, rfl, rfl, rfl, .inr ⟨by decide, rfl⟩, not_beginsGap_mark text⟩
  | case11 c text hclose hne ih =>
    obtain ⟨gap, rest, rfl, hwidth, hmark, hgap, hrest⟩ := ih
    refine ⟨c :: gap, rest, rfl, by simp only [List.length_cons]; omega, ?_, ?_, hrest⟩
    · exact (beforeMark_blockComment_cons hne hclose).trans (congrArg (List.cons c) hmark)
    -- The comment could only be closed here if its next character were a slash.
    · obtain ⟨body, more, rfl, hbody, hgap⟩ | ⟨hbody, hend⟩ := hgap
      · refine .inl ⟨c :: body, more, rfl, not_commentEnd_cons hbody fun hc hhead => ?_, hgap⟩
        cases body with
        | nil => simp at hhead
        | cons d body =>
          obtain rfl : d = '/' := Option.some.inj hhead
          exact hclose _ hc rfl
      · refine .inr ⟨not_commentEnd_cons hbody fun hc hhead => ?_, hend⟩
        obtain ⟨more, rfl⟩ := List.head?_eq_some_iff.mp hhead
        exact hclose _ hc rfl

/-! ## Literals

What a literal covers ends at its closing quote, or where the line or the text does. -/

/-- The characters `raw` in front of the closing quote of a literal stand for `contents`. A quote, a
line break or a backslash has to be escaped. -/
inductive IsBody (quote : Char) : (raw contents : List Char) → Prop
  | nil : IsBody quote [] []
  | plain {c : Char} {raw contents : List Char} (hquote : c ≠ quote) (hslash : c ≠ '\\')
    (hline : c ≠ '\n')
    (h : IsBody quote raw contents) : IsBody quote (c :: raw) (c :: contents)
  | escape {c : Char} {raw contents : List Char} (h : IsBody quote raw contents) :
    IsBody quote ('\\' :: c :: raw) (Literal.unescape c :: contents)

/-- The reader passes over these characters of a literal, whatever follows them. -/
def Passed (quote : Char) (body : List Char) : Prop :=
  ∀ rest, beforeMark (.literal quote) (body ++ rest) = body ++ beforeMark (.literal quote) rest

/-- How a literal ends: at its first bare quote, or without one in front of a line break, at the end
of the text or inside of an escape. -/
inductive Literal.Ends (quote : Char) : List Char → Literal → Prop
  | closed {body contents rest : List Char} (h : IsBody quote body contents)
    (hpassed : Passed quote body) :
    Ends quote (body ++ quote :: rest) ⟨true, contents, body.length + 1⟩
  | unclosed {body contents rest : List Char} (h : IsBody quote body contents)
    (hpassed : Passed quote body)
    (hend : AtLineEnd rest ∨ ∃ more, rest = endMark :: more) : Ends quote (body ++ rest)
      ⟨false, contents, body.length⟩
  | cut {body contents : List Char} (h : IsBody quote body contents) (hpassed : Passed quote body) :
    Ends quote (body ++ ['\\']) ⟨false, contents ++ [endMark], body.length + 2⟩

theorem Literal.Ends.extend {l : Literal} (h : Ends quote text l) (front : List Char)
    (hfront : ∀ {raw contents}, IsBody quote raw contents →
      IsBody quote (front ++ raw) (c :: contents)) (hpass : Passed quote front) :
    Ends quote (front ++ text) (l.cons c front.length) := by
  have happend {body : List Char} (hpassed : Passed quote body) : Passed quote (front ++ body) :=
    fun rest => by
    rw [List.append_assoc, hpass, hpassed, List.append_assoc]
  cases h with
  | closed h hpassed =>
    rw [← List.append_assoc, Literal.cons, ← Nat.add_assoc, ← List.length_append]
    exact .closed (hfront h) (happend hpassed)
  | unclosed h hpassed hend =>
    rw [← List.append_assoc, Literal.cons, ← List.length_append]
    exact .unclosed (hfront h) (happend hpassed) hend
  | cut h hpassed =>
    rw [← List.append_assoc, Literal.cons, ← Nat.add_assoc, ← List.length_append]
    exact .cut (hfront h) (happend hpassed)

/-- By recursion on the text: an escape sequence, a plain character, the closing quote, or the
end. -/
theorem Literal.ends_read (quote : Char) (text : List Char) :
    Ends quote text (read quote text) := by
  have hnil : Passed quote [] := fun _ => rfl
  fun_induction Literal.read quote text with
  | case1 =>
    show Ends quote ([] ++ []) _
    exact .unclosed .nil hnil (.inl (.inl rfl))
  | case2 => exact .cut .nil hnil
  | case3 c text ih => exact ih.extend ['\\', c] .escape fun _ => rfl
  | case4 text => exact .closed .nil hnil
  | case5 c text _ _ hc hstop =>
    refine .unclosed .nil hnil ?_
    rcases hstop with rfl | rfl
    · exact .inr ⟨text, rfl⟩
    · exact .inl (.inr ⟨text, rfl⟩)
  | case6 c text hlast hescape hc hgo ih =>
    have hslash : c ≠ '\\' := by
      rintro rfl
      cases text with
      | nil => exact hlast rfl rfl
      | cons d text => exact hescape d text rfl rfl
    obtain ⟨hmark, hline⟩ := not_or.mp hgo
    exact ih.extend [c] (.plain hc hslash hline) fun _ => beforeMark_literal_cons hmark
      hslash hc hline _

/-! ## Tokens -/

/-- A word is a keyword exactly if it is the text of one. -/
def IsWordKind (word : List Char) (kind : TokenKind) : Prop :=
  (kind ∈ TokenKind.keywords ∧ kind.text.toList = word) ∨
    (kind = .identifier ∧ ∀ k ∈ TokenKind.keywords, k.text.toList ≠ word)

/-- The special symbols, of one and of two characters. -/
def TokenKind.symbols : List TokenKind := TokenKind.doubleSymbols ++ TokenKind.singleSymbols

/-- The kind of literal that begins with this quote. -/
def TokenKind.quotedBy? : Char → Option TokenKind
  | '\x22' => some .string
  | '\x27' => some .character
  | _ => none

theorem TokenKind.quotedBy?_eq_some (h : quotedBy? quote = some kind) :
    (quote = '\x22' ∧ kind = .string) ∨ (quote = '\x27' ∧ kind = .character) := by
  unfold quotedBy? at h
  split at h
  · exact .inl ⟨rfl, (Option.some.inj h).symm⟩
  · exact .inr ⟨rfl, (Option.some.inj h).symm⟩
  · cases h

/-- The characters `raw`, with `rest` behind them, are a token of this kind and text. -/
inductive IsToken : TokenKind → (text raw rest : List Char) → Prop
  /-- The character behind it could not be part of the word. -/
  | word {kind : TokenKind} {c : Char} {cs rest : List Char} (hkind : IsWordKind (c :: cs) kind)
    (hc : isWordStart c = true) (hcs : ∀ d ∈ cs, isWordPart d = true)
      (hend : ∀ d ∈ rest.head?, isWordPart d = false) :
    IsToken kind (c :: cs) (c :: cs) rest
  | integer {c : Char} {cs rest : List Char} (hcs : ∀ d ∈ c :: cs, Text.isDigit d = true)
    (hend : ∀ d ∈ rest.head?, Text.isDigit d = false) : IsToken .integer (c :: cs) (c :: cs) rest
  /-- No longer symbol stands there. -/
  | symbol {kind : TokenKind} {rest : List Char} (hkind : kind ∈ TokenKind.symbols)
    (hlongest : ∀ k ∈ TokenKind.symbols, k.text.toList <+: kind.text.toList ++ rest →
      k.text.toList.length ≤ kind.text.toList.length) :
    IsToken kind kind.text.toList kind.text.toList rest
  | literal {kind : TokenKind} {quote : Char} {body contents rest : List Char}
    (hquote : TokenKind.quotedBy? quote = some kind) (hbody : IsBody quote body contents) :
    IsToken kind contents (quote :: (body ++ [quote])) rest

/-- The characters `raw`, with `rest` behind them, are illegal: one character at which no token can
begin, or a literal that is not closed on its line. -/
inductive IsIllegal : (text raw rest : List Char) → Prop
  | stray {c : Char} {rest : List Char} (hquote : TokenKind.quotedBy? c = none)
    (hnone : ∀ kind text raw more, raw ++ more = c :: rest → ¬IsToken kind text raw more) :
      IsIllegal [c] [c] rest
  | unclosed {quote : Char} {body contents rest : List Char}
    (hquote : TokenKind.quotedBy? quote ≠ none)
    (hbody : IsBody quote body contents) (hend : AtLineEnd rest) : IsIllegal contents
      (quote :: body) rest
  | cut {quote : Char} {body contents : List Char} (hquote : TokenKind.quotedBy? quote ≠ none)
    (hbody : IsBody quote body contents) : IsIllegal (contents ++ [endMark])
      (quote :: (body ++ ['\\'])) []

/-- What can stand between two gaps. -/
def IsPiece (kind : TokenKind) (text raw rest : List Char) : Prop :=
  IsToken kind text raw rest ∨ (kind = .illegal ∧ IsIllegal text raw rest)

theorem isWordKind_wordKind (word : List Char) : IsWordKind word (Lexeme.wordKind word) := by
  unfold Lexeme.wordKind
  cases hfind : TokenKind.keywords.find? (·.text.toList == word) with
  | none =>
    refine .inr ⟨rfl, fun k hk htext => List.find?_eq_none.mp hfind k hk ?_⟩
    exact beq_iff_eq.mpr htext
  | some kind =>
    have htext : (kind.text.toList == word) = true := (List.find?_eq_some_iff_append.mp hfind).1
    exact .inl ⟨List.mem_of_find?_eq_some hfind, eq_of_beq htext⟩

/-- A symbol of two characters is looked for first, so the longest one is found. -/
theorem Lexeme.symbol?_eq_some (h : Lexeme.symbol? text = some kind) :
    ∃ rest, text = kind.text.toList ++ rest ∧
      IsToken kind kind.text.toList kind.text.toList rest := by
  have hprefix : kind.text.toList.isPrefixOf text = true := (List.find?_eq_some_iff_append.mp h).1
  obtain ⟨rest, rfl⟩ := List.isPrefixOf_iff_prefix.mp hprefix
  refine ⟨rest, rfl, .symbol (List.mem_of_find?_eq_some h) fun k hk hprefix => ?_⟩
  have hdoubles : ∀ k ∈ TokenKind.doubleSymbols, k.text.toList.length = 2 := by decide
  have hsingles : ∀ k ∈ TokenKind.singleSymbols, k.text.toList.length = 1 := by decide
  have hall : ∀ k ∈ TokenKind.symbols, k.text.toList.length ≤ 2 := by decide
  rw [Lexeme.symbol?, List.find?_append] at h
  cases hdouble : TokenKind.doubleSymbols.find?
    (·.text.toList.isPrefixOf (kind.text.toList ++ rest)) with
  | some double =>
    rw [hdouble, Option.some_or] at h
    obtain rfl := Option.some.inj h
    rw [hdoubles _ (List.mem_of_find?_eq_some hdouble)]
    exact hall k hk
  | none =>
    -- A symbol of one character is found only where none of two characters stands.
    rcases List.mem_append.mp hk with hk | hk
    · exact absurd (List.isPrefixOf_iff_prefix.mpr hprefix) (List.find?_eq_none.mp hdouble k hk)
    · rw [hdouble, Option.none_or] at h
      rw [hsingles _ hk, hsingles _ (List.mem_of_find?_eq_some h)]

/-- What is a token stays one if less follows it. -/
theorem IsToken.of_append {more : List Char} (h : IsToken kind text raw (rest ++ more)) :
    IsToken kind text raw rest := by
  have hhead {d : Char} (hd : d ∈ rest.head?) : d ∈ (rest ++ more).head? := by
    obtain ⟨tail, rfl⟩ := List.head?_eq_some_iff.mp hd
    exact rfl
  cases h with
  | word hkind hc hcs hend => exact .word hkind hc hcs fun d hd => hend d (hhead hd)
  | integer hcs hend => exact .integer hcs fun d hd => hend d (hhead hd)
  | symbol hkind hlongest =>
    refine .symbol hkind fun k hk hfront => hlongest k hk (hfront.trans ?_)
    rw [← List.append_assoc]
    exact List.prefix_append _ more
  | literal hquote hbody => exact .literal hquote hbody

theorem IsToken.beforeMark (h : IsToken kind text raw rest) :
    IsToken kind text raw (CSubset.beforeMark .code rest) := by
  obtain ⟨more, hmore, -⟩ := exists_eq_beforeMark_append .code rest
  rw [hmore] at h
  exact h.of_append

/-- The lexeme describes the front of the text, and the reader goes on right behind it. An end mark
behind it is as good as the end of the text. -/
def Lexeme.Covers (l : Lexeme) (text : List Char) : Prop :=
  ∃ raw rest, text = raw ++ rest ∧ raw ≠ [] ∧ text.drop l.width = rest ∧
    beforeMark .code text = raw ++ beforeMark .code rest ∧
    IsPiece l.kind l.text raw (beforeMark .code rest)

namespace Lexeme

variable {text rest : List Char} {c : Char} {kind : TokenKind}

theorem Covers.of_spelled {cs : List Char}
    (hpass : beforeMark .code (c :: cs ++ rest) = c :: cs ++ beforeMark .code rest)
    (h : IsPiece kind (c :: cs) (c :: cs) (beforeMark .code rest)) :
    (spelled kind (c :: cs)).Covers (c :: cs ++ rest) :=
  ⟨c :: cs, rest, rfl, List.cons_ne_nil _ _, List.drop_left, hpass, h⟩

theorem Covers.of_literal {quote : Char} (hquote : TokenKind.quotedBy? quote = some kind)
    (text : List Char) : (literal kind (Literal.read quote text)).Covers (quote :: text) := by
  have hends := Literal.ends_read quote text
  have hsome : TokenKind.quotedBy? quote ≠ none := hquote ▸ Option.some_ne_none kind
  have hopen (rest : List Char) : beforeMark .code (quote :: rest) = quote :: beforeMark
      (.literal quote) rest := by
    rcases TokenKind.quotedBy?_eq_some hquote with ⟨rfl, -⟩ | ⟨rfl, -⟩ <;> rfl
  have hclose (rest : List Char) : beforeMark (.literal quote) (quote :: rest) = quote ::
      beforeMark .code rest := by
    rcases TokenKind.quotedBy?_eq_some hquote with ⟨rfl, -⟩ | ⟨rfl, -⟩ <;> rfl
  generalize Literal.read quote text = l at hends
  cases hends with
  | @closed body contents rest hbody hpassed =>
    refine ⟨quote :: (body ++ [quote]),
      rest, by simp, List.cons_ne_nil _ _, ?_, ?_, .inl (.literal hquote hbody)⟩
    · simp [literal, Nat.add_comm 1]
    · rw [hopen, hpassed, hclose]
      simp
  | @unclosed body contents rest hbody hpassed hend =>
    -- behind the literal there is code again, unless nothing is read there
    have hcode : beforeMark (.literal quote) rest = beforeMark .code rest ∧
        AtLineEnd (beforeMark .code rest) := by
      rcases hend with (rfl | ⟨more, rfl⟩) | ⟨more, rfl⟩
      · exact ⟨rfl, .inl rfl⟩
      · exact ⟨beforeMark_literal_line quote more, .inr ⟨_, rfl⟩⟩
      · exact ⟨rfl, .inl rfl⟩
    refine ⟨quote :: body, rest, rfl, List.cons_ne_nil _ _, ?_, ?_,
      .inr ⟨rfl, .unclosed hsome hbody hcode.2⟩⟩
    · simp [literal, Nat.add_comm 1]
    · rw [hopen, hpassed, hcode.1]
      rfl
  | @cut body contents hbody hpassed =>
    refine ⟨quote :: (body ++ ['\\']),
      [], by simp, List.cons_ne_nil _ _, ?_, ?_, .inr ⟨rfl, .cut hsome hbody⟩⟩
    · simp [literal, Nat.add_comm 1]
    · rw [hopen, hpassed]
      exact (List.append_nil _).symm

/-- The longest run of characters of one class ends in front of a character of another. -/
theorem eq_takeWhile_append (p : Char → Bool) (text : List Char) :
    ∃ rest, text = text.takeWhile p ++ rest ∧ (∀ d ∈ text.takeWhile p, p d = true) ∧
      ∀ d ∈ rest.head?, p d = false := by
  refine ⟨text.dropWhile p, List.takeWhile_append_dropWhile.symm,
    List.all_eq_true.mp List.all_takeWhile, fun d hd => ?_⟩
  have hnot := List.head?_dropWhile_not p text
  rw [hd] at hnot
  simpa using hnot

/-- Where the reader finds neither a symbol nor a literal, a word or a number, there is no token. -/
theorem not_isToken (hsymbol : symbol? (c :: text) = none) (hquote : TokenKind.quotedBy? c = none)
    (hword : ¬isWordStart c = true) (hdigit : ¬Text.isDigit c = true) (kind : TokenKind)
    (contents raw more : List Char) (heq : raw ++ more = c :: text) :
    ¬IsToken kind contents raw more := by
  intro h
  cases h with
  | word _ hc => exact hword ((List.cons.inj heq).1 ▸ hc)
  | integer hcs => exact hdigit ((List.cons.inj heq).1 ▸ hcs _ List.mem_cons_self)
  | symbol hkind =>
    refine List.find?_eq_none.mp hsymbol kind hkind (List.isPrefixOf_iff_prefix.mpr ?_)
    exact ⟨more, heq⟩
  | literal hkind =>
    rw [(List.cons.inj heq).1, hquote] at hkind
    cases hkind

/-- The reader passes over a symbol, which does not begin a comment. -/
theorem beforeMark_symbol (hkind : kind ∈ TokenKind.symbols)
    (hstart : ¬BeginsGap (kind.text.toList ++ rest)) :
    beforeMark .code (kind.text.toList ++ rest) = kind.text.toList ++ beforeMark .code rest := by
  have hplain : ∀ k ∈ TokenKind.symbols, k ≠ .slash → k.text.toList.all fun c => IsPlain c := by
    decide
  by_cases hslash : kind = .slash
  · subst hslash
    refine beforeMark_code_slash ?_ ?_
    · rintro more rfl
      exact hstart (.inr (.inl ⟨more, rfl⟩))
    · rintro more rfl
      exact hstart (.inr (.inr ⟨more, rfl⟩))
  · have hall := List.all_eq_true.mp (hplain kind hkind hslash)
    exact beforeMark_code_append (fun c hc => of_decide_eq_true (hall c hc)) rest

theorem symbol?_of_append {more : List Char} (h : symbol? (text ++ more) = none) :
    symbol? text = none := by
  refine List.find?_eq_none.mpr fun k hk hprefix => List.find?_eq_none.mp h k hk ?_
  exact List.isPrefixOf_iff_prefix.mpr
    ((List.isPrefixOf_iff_prefix.mp hprefix).trans (List.prefix_append text more))

/-- A longest run of characters of one class, behind a first character. -/
theorem covers_run {p : Char → Bool}
    (hplain : ∀ d, d = c ∨ p d = true → IsPlain d)
    (htoken : ∀ rest, (∀ d ∈ text.takeWhile p, p d = true) → (∀ d ∈ rest.head?, p d = false) →
      IsToken kind (c :: text.takeWhile p) (c :: text.takeWhile p) rest) :
    (spelled kind (c :: text.takeWhile p)).Covers (c :: text) := by
  obtain ⟨rest, htext, hcs, hend⟩ := eq_takeWhile_append p text
  have hall : ∀ d ∈ c :: text.takeWhile p, IsPlain d :=
    List.forall_mem_cons.mpr ⟨hplain c (.inl rfl), fun d hd => hplain d (.inr (hcs d hd))⟩
  have hrun : (spelled kind (c :: text.takeWhile p)).Covers (c :: text.takeWhile p ++ rest) :=
    .of_spelled (beforeMark_code_append hall rest) (.inl (htoken rest hcs hend).beforeMark)
  rwa [List.cons_append, ← htext] at hrun

/-- A character at which no token can be formed. -/
theorem covers_stray (hmark : c ≠ endMark) (hsymbol : symbol? (c :: text) = none)
    (hdouble : c ≠ '\x22') (hsingle : c ≠ '\x27') (hword : ¬isWordStart c = true)
    (hdigit : ¬Text.isDigit c = true) : (spelled .illegal [c]).Covers (c :: text) := by
  have hquote : TokenKind.quotedBy? c = none := by
    unfold TokenKind.quotedBy?
    split <;> simp_all
  have hslash : c ≠ '/' := by
    rintro rfl
    exact List.find?_eq_none.mp hsymbol .slash (by decide) rfl
  -- what is a symbol in front of the end mark is one in the whole text
  obtain ⟨more, hmore, -⟩ := exists_eq_beforeMark_append .code text
  have hsymbol' : symbol? (c :: beforeMark .code text) = none := by
    rw [hmore] at hsymbol
    exact symbol?_of_append hsymbol
  exact .of_spelled (beforeMark_code_cons ⟨hmark, hslash, hdouble, hsingle⟩ text)
    (.inr ⟨rfl, .stray hquote (not_isToken hsymbol' hquote hword hdigit)⟩)

/-- The first character tells a word, a number, a literal and a symbol apart. -/
theorem covers_startingWith (hmark : c ≠ endMark) (hstart : ¬BeginsGap (c :: text)) :
    (startingWith c text).Covers (c :: text) := by
  unfold startingWith
  split
  next kind hsymbol =>
    obtain ⟨rest, htext, htoken⟩ := symbol?_eq_some hsymbol
    have hpass := beforeMark_symbol (List.mem_of_find?_eq_some hsymbol) (htext ▸ hstart)
    have htoken := htoken.beforeMark
    rw [htext]
    cases hkind : kind.text.toList with
    | nil => cases kind <;> cases hkind
    | cons d ds =>
      rw [hkind] at htoken hpass
      exact .of_spelled hpass (.inl htoken)
  next hsymbol =>
    -- the classes are tried in this order
    split_ifs with hdouble hsingle hword hdigit
    · subst hdouble
      exact .of_literal rfl text
    · subst hsingle
      exact .of_literal rfl text
    · refine covers_run ?_ fun rest hcs hend => .word (isWordKind_wordKind _) hword hcs hend
      rintro d (rfl | hd)
      · exact isPlain_of_class (by decide +kernel) hword
      · exact isPlain_of_class (by decide +kernel) hd
    · refine covers_run ?_ fun rest hcs hend => .integer
        (List.forall_mem_cons.mpr ⟨hdigit, hcs⟩) hend
      rintro d (rfl | hd)
      · exact isPlain_of_class (by decide +kernel) hdigit
      · exact isPlain_of_class (by decide +kernel) hd
    · exact covers_stray hmark hsymbol hdouble hsingle hword hdigit

theorem covers_of_first? {l : Lexeme} (h : first? text = some l) (hstart : ¬BeginsGap text) :
    l.Covers text := by
  cases text with
  | nil => cases h
  | cons c text =>
    rw [first?] at h
    split at h
    next => cases h
    next hmark => exact Option.some.inj h ▸ covers_startingWith hmark hstart

theorem beforeMark_of_first?_none (h : first? text = none) : beforeMark .code text = [] := by
  cases text with
  | nil => rfl
  | cons c text =>
    rw [first?] at h
    split at h
    next hmark => rw [hmark]; rfl
    next => cases h

end Lexeme

/-- What stands between the cursor and the next token is a gap. -/
theorem Cursor.exists_skipGap (c : Cursor) :
    ∃ gap, c.rest = gap ++ c.skipGap.rest ∧ beforeMark .code c.rest = gap ++ beforeMark .code
      c.skipGap.rest ∧
      IsGap gap (beforeMark .code c.skipGap.rest) ∧ ¬BeginsGap c.skipGap.rest := by
  obtain ⟨gap, rest, hrest, hwidth, hmark, hgap, hstart⟩ := exists_gap .blank c.rest
  have hskip : c.skipGap.rest = rest := by
    rw [Cursor.skipGap, Cursor.rest_advanceBy, ← hwidth, hrest, List.drop_left]
  rw [hskip]
  exact ⟨gap, hrest, hmark, hgap, hstart⟩

/-! ## Partitions -/

/-- A text is a gap, the characters of a token, a gap and so on. Each gap reaches as far as it
can. -/
inductive Partition : List Char → List (TokenKind × List Char) → Prop
  | stop {gap : List Char} (hgap : IsGap gap []) : Partition gap []
  | token {kind : TokenKind} {gap text raw rest : List Char} {tokens : List (TokenKind × List Char)}
    (hgap : IsGap gap (raw ++ rest)) (hstart : ¬BeginsGap (raw ++ rest)) (hraw : raw ≠ [])
    (hpiece : IsPiece kind text raw rest) (hrest : Partition rest tokens) :
    Partition (gap ++ (raw ++ rest)) ((kind, text) :: tokens)

/-- No token is empty. -/
theorem Partition.length_le (h : Partition text tokens) : tokens.length ≤ text.length := by
  induction h with
  | stop => exact Nat.zero_le _
  | token _ _ hraw _ _ ih =>
    have hpos := List.length_pos_iff.mpr hraw
    simp only [List.length_cons, List.length_append]
    omega

theorem IsPiece.kind_ne_eof (h : IsPiece kind text raw rest) : kind ≠ .eof := by
  rintro rfl
  obtain (⟨hkind, -⟩ | - | ⟨hkind⟩ | ⟨hquote⟩) | ⟨hkind, -⟩ := h
  · rcases hkind with ⟨hkind, -⟩ | ⟨hkind, -⟩
    · exact absurd hkind (by decide)
    · cases hkind
  · exact absurd hkind (by decide)
  · unfold TokenKind.quotedBy? at hquote
    split at hquote <;> cases hquote
  · cases hkind

theorem Partition.kind_ne_eof (h : Partition text tokens) : ∀ t ∈ tokens, t.1 ≠ .eof := by
  induction h with
  | stop => exact nofun
  | token _ _ _ hpiece _ ih => exact List.forall_mem_cons.mpr ⟨hpiece.kind_ne_eof, ih⟩

namespace TokenStream

variable {c : Cursor} {l : Lexeme}

theorem ofCursor_of_none (h : Lexeme.first? c.skipGap.rest = none) :
    ofCursor c = ⟨[], c.skipGap.pos⟩ := by
  rw [ofCursor]
  split <;> simp_all

theorem ofCursor_of_some (h : Lexeme.first? c.skipGap.rest = some l) :
    ofCursor c =
      ⟨⟨l.kind, String.ofList l.text, c.skipGap.pos⟩ ::
      (ofCursor (c.skipGap.advanceBy l.width)).tokens,
      (ofCursor (c.skipGap.advanceBy l.width)).stop⟩ := by
  rw [ofCursor]
  split
  next hnone => simp [h] at hnone
  next l' hsome =>
    obtain rfl := Option.mem_unique h hsome
    rfl

/-- Kind and text of a token. -/
def described (s : TokenStream) : List (TokenKind × List Char) :=
  s.tokens.map fun t => (t.kind, t.text.toList)

theorem described_of_none (h : Lexeme.first? c.skipGap.rest = none) :
    (ofCursor c).described = [] := by
  rw [ofCursor_of_none h]
  rfl

theorem described_of_some (h : Lexeme.first? c.skipGap.rest = some l) :
    (ofCursor c).described = (l.kind, l.text) ::
      (ofCursor (c.skipGap.advanceBy l.width)).described := by
  rw [ofCursor_of_some h, described, List.map_cons, String.toList_ofList]
  rfl

/-- The reader takes apart the text in front of the first end mark, and no more. -/
theorem partition_beforeMark (c : Cursor) :
    Partition (beforeMark .code c.rest) (ofCursor c).described := by
  obtain ⟨gap, hrest, hmark, hgap, hstart⟩ := c.exists_skipGap
  rw [hmark]
  cases hfirst : Lexeme.first? c.skipGap.rest with
  | none =>
    rw [Lexeme.beforeMark_of_first?_none hfirst] at hgap ⊢
    rw [described_of_none hfirst, List.append_nil]
    exact .stop hgap
  | some l =>
    obtain ⟨raw, rest, htext, hraw, hdrop, hpass, hpiece⟩ := Lexeme.covers_of_first? hfirst hstart
    have hnext : (c.skipGap.advanceBy l.width).rest = rest := by rw [Cursor.rest_advanceBy, hdrop]
    have ih := partition_beforeMark (c.skipGap.advanceBy l.width)
    rw [hnext] at ih
    obtain ⟨more, hmore, -⟩ := exists_eq_beforeMark_append .code c.skipGap.rest
    have hstart' : ¬BeginsGap (beforeMark .code c.skipGap.rest) := by
      intro h
      have hwhole := h.append more
      rw [← hmore] at hwhole
      exact hstart hwhole
    rw [hpass] at hgap hstart' ⊢
    rw [described_of_some hfirst]
    exact .token hgap hstart' hraw hpiece ih
termination_by c.rest.length
decreasing_by
  rw [hnext, hrest, htext]
  have hpos := List.length_pos_iff.mpr hraw
  simp only [List.length_append]
  omega

theorem partition_ofCursor (c : Cursor) (hmark : endMark ∉ c.rest) :
    Partition c.rest (ofCursor c).described := by
  have h := partition_beforeMark c
  rwa [beforeMark_eq_self hmark] at h

end TokenStream

/-! ## One token after the other -/

namespace Cursor

theorem skipGap_of_none {c : Cursor} (h : Lexeme.first? c.rest = none) : c.skipGap = c := by
  have hwidth : gapWidth .blank c.rest = 0 := by
    cases hrest : c.rest with
    | nil => rw [gapWidth]
    | cons d rest =>
      rw [hrest, Lexeme.first?] at h
      split at h
      next hd =>
        subst hd
        rfl
      next => cases h
  rw [skipGap, hwidth, advanceBy]

/-- Read one by one, the tokens are those of the stream, and then the end again and again. -/
theorem token_eq (k : Nat) (c : Cursor) :
    token k c = ((TokenStream.ofCursor c).tokens[k]?).getD (TokenStream.ofCursor c).endToken := by
  induction k generalizing c with
  | zero =>
    unfold token next
    split
    next h => rw [TokenStream.ofCursor_of_none h]; rfl
    next l h => rw [TokenStream.ofCursor_of_some h]; rfl
  | succ k ih =>
    unfold token next
    split
    next h =>
      have hskip := skipGap_of_none h
      rw [ih, TokenStream.ofCursor_of_none h, TokenStream.ofCursor_of_none (hskip.symm ▸ h), hskip]
      rfl
    next l h =>
      rw [ih, TokenStream.ofCursor_of_some h]
      rfl

end Cursor

/-- The tokens of a text without the end mark and the gaps between them are the whole text. There
are no more tokens than characters; read one by one, they come in this order, and after them the end
as often as one reads on. -/
theorem tokens_partition_text {text : List Char} (hmark : endMark ∉ text) :
    Partition text (TokenStream.ofText text).described ∧
      (TokenStream.ofText text).tokens.length ≤ text.length ∧
      (∀ t ∈ (TokenStream.ofText text).tokens, t.kind ≠ .eof) ∧
      ∀ k, Cursor.token k (Cursor.start text) =
        ((TokenStream.ofText text).tokens[k]?).getD (TokenStream.ofText text).endToken := by
  have hpartition : Partition text (TokenStream.ofText text).described :=
    TokenStream.partition_ofCursor (Cursor.start text) hmark
  refine ⟨hpartition, ?_, fun t ht => ?_, fun k => Cursor.token_eq k _⟩
  · simpa [TokenStream.described] using hpartition.length_le
  · exact hpartition.kind_ne_eof (t.kind, t.text.toList) (List.mem_map_of_mem ht)

/-- A comment that looks closed too early, two symbols without a blank, an escaped quote, a stray
character, and a literal that ends inside of an escape. -/
def junctions : List Char := "/*/*/<<=a1'\\''!\x22x\\".toList

theorem junctions_partition :
    endMark ∉ junctions ∧
    (TokenStream.ofText junctions).described =
      [(.shiftLeft, ['<', '<']), (.assign, ['=']), (.identifier, ['a', '1']),
        (.character, ['\x27']), (.illegal, ['!']),
        (.illegal, ['x', endMark])] ∧
    Partition junctions (TokenStream.ofText junctions).described := by
  have hmark : endMark ∉ junctions := by decide
  exact ⟨hmark, by decide +kernel, (tokens_partition_text hmark).1⟩

end CSubset
