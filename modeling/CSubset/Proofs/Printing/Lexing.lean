import CSubset.Proofs.Layout.Phrases
import CSubset.Proofs.Printing.Printer
import CSubset.Proofs.Token.Literals
import Mathlib.Tactic.FinCases

/-!
# Reading the tokens of a printed text

A token that is spelled as its kind asks (`Spelled`) is what the reader finds at the front of its
text, if a blank follows (`first?_source`). So the text of a list of such tokens has these tokens
(`spelling_render`).
-/

namespace CSubset.Printing

open Lexeme (isWordStart isWordPart)

variable {c : Char} {cs : List Char} {kind : TokenKind} {n : Nat} {t : Token} {ts : List Token}

/-- A token whose text is one that tokens of its kind have. -/
inductive Spelled : Token → Prop
  | symbol {kind : TokenKind} (h : kind ∈ TokenKind.doubleSymbols ++ TokenKind.singleSymbols) :
    Spelled (fixed kind)
  | keyword {kind : TokenKind} (h : kind ∈ TokenKind.keywords) : Spelled (fixed kind)
  | name {x : String} (h : IsIdentifier x) : Spelled (named x)
  | numeral (n : Nat) : Spelled (numeral n)
  | quoted (contents : String) : Spelled (quoted contents)

/-! ## Characters -/

/-- The code points that lie in stretches which begin at `start`. -/
def covered : Bool → Nat → List Nat → List Nat
  | _, _, [] => []
  | inside, start, length :: rest =>
    (if inside then List.range' start length else []) ++ covered (!inside) (start + length) rest

theorem mem_covered {inside : Bool} {stretches : List Nat}
    (h : Text.inStretches inside stretches n = true) (start : Nat) :
    start + n ∈ covered inside start stretches := by
  induction stretches generalizing inside start n with
  | nil => cases h
  | cons length rest ih =>
    rw [Text.inStretches] at h
    rw [covered, List.mem_append]
    split at h
    next hlt => exact .inl (by simp [h, hlt])
    next hle =>
      have hrest := ih h (start + length)
      rw [show start + length + (n - length) = start + n by omega] at hrest
      exact .inr hrest

theorem mem_covered_of_isBlank (h : Text.isBlank c = true) :
    c.toNat ∈ covered false 0 Text.blankStretches :=
  Nat.zero_add c.toNat ▸ mem_covered h 0

/-- No ASCII character in front of the capital letters is the first one of a word. -/
theorem ne_of_isWordStart {d : Char} (hc : isWordStart c = true) (hd : d.toNat < 0x41) : c ≠ d := by
  rintro rfl
  rw [IsWord.isWordStart_of_lt hd] at hc
  cases hc

/-- No blank begins a word. -/
theorem isBlank_of_isWordStart (h : isWordStart c = true) : Text.isBlank c = false := by
  have hletters : ∀ n ∈ covered false 0 Text.blankStretches,
      Text.inStretches false Text.letterStretches n = false ∧ n ≠ '_'.toNat := by decide +kernel
  by_contra hblank
  obtain ⟨hletter, hne⟩ := hletters _ (mem_covered_of_isBlank (Bool.not_eq_false _ ▸ hblank))
  have hunderscore : c ≠ '_' := by
    rintro rfl
    exact hne rfl
  simp [isWordStart, Text.isLetter, hletter, hunderscore] at h

theorem gapWidth_eq_zero (hblank : Text.isBlank c = false) (hslash : c ≠ '/') (rest : List Char) :
    gapWidth .blank (c :: rest) = 0 := by
  unfold gapWidth
  split <;> simp_all

/-- A character that no symbol begins with. -/
theorem symbol?_eq_none
    (hc : ∀ k ∈ TokenKind.doubleSymbols ++ TokenKind.singleSymbols, k.text.toList.head? ≠ some c)
    (rest : List Char) : Lexeme.symbol? (c :: rest) = none := by
  have hne : ∀ k ∈ TokenKind.doubleSymbols ++ TokenKind.singleSymbols, k.text.toList ≠ [] := by
    decide
  refine List.find?_eq_none.mpr fun k hk h => ?_
  obtain ⟨tail, heq⟩ := List.isPrefixOf_iff_prefix.mp h
  cases htext : k.text.toList with
  | nil => exact hne k hk htext
  | cons d ds =>
    rw [htext] at heq
    obtain ⟨rfl, -⟩ := List.cons.inj heq
    exact hc k hk (by rw [htext]; rfl)

theorem symbol?_word (h : isWordStart c = true) (rest : List Char) :
    Lexeme.symbol? (c :: rest) = none := by
  have hheads : ∀ k ∈ TokenKind.doubleSymbols ++ TokenKind.singleSymbols,
      k.text.toList.head?.all fun d => isWordStart d = false := by decide
  refine symbol?_eq_none (fun k hk hhead => ?_) rest
  have hall := hheads k hk
  rw [hhead, Option.all_some, h] at hall
  cases hall

/-! ## Words and numerals -/

theorem takeWhile_before_blank {p : Char → Bool} (hcs : ∀ c ∈ cs, p c = true)
    (hblank : p ' ' = false) (rest : List Char) : (cs ++ ' ' :: rest).takeWhile p = cs := by
  rw [List.takeWhile_append_of_pos hcs, List.takeWhile_cons_of_neg (by simp [hblank]),
    List.append_nil]

/-- Whether a word is a keyword depends on its text only. -/
theorem first?_word (hc : isWordStart c = true) (hcs : ∀ d ∈ cs, isWordPart d = true)
    (rest : List Char) :
    Lexeme.first? (c :: cs ++ ' ' :: rest) =
      some ⟨Lexeme.wordKind (c :: cs), c :: cs, cs.length + 1⟩ := by
  have hend : c ≠ endMark := ne_of_isWordStart hc (by decide)
  have hquote : c ≠ '\x22' := ne_of_isWordStart hc (by decide)
  have happostrophe : c ≠ '\x27' := ne_of_isWordStart hc (by decide)
  have hword := takeWhile_before_blank hcs (by decide) rest
  rw [List.cons_append, Lexeme.first?, if_neg hend, Lexeme.startingWith, symbol?_word hc]
  dsimp only
  rw [if_neg hquote, if_neg happostrophe, if_pos hc, hword]
  rfl

theorem gapWidth_word (hc : isWordStart c = true) (rest : List Char) :
    gapWidth .blank (c :: rest) = 0 :=
  gapWidth_eq_zero (isBlank_of_isWordStart hc) (ne_of_isWordStart hc (by decide)) rest

theorem wordKind_identifier {x : String} (h : IsIdentifier x) :
    Lexeme.wordKind x.toList = .identifier := by
  have hnone : TokenKind.keywords.find? (·.text.toList == x.toList) = none := by
    refine List.find?_eq_none.mpr fun k hk heq => h.2 k hk ?_
    exact String.toList_injective (eq_of_beq heq)
  rw [Lexeme.wordKind, hnone]
  rfl

theorem toList_toString (n : Nat) : (toString n).toList = Nat.toDigits 10 n := by
  rw [Nat.toString_eq_repr, Nat.repr, String.toList_ofList]

theorem isDigit_of_mem_toString (hc : c ∈ (toString n).toList) : '0' ≤ c ∧ c ≤ '9' := by
  rw [toList_toString] at hc
  have hdigit : c.isDigit = true := Nat.isDigit_of_mem_toDigits (by decide) (by decide) hc
  rw [Char.isDigit, Bool.and_eq_true, decide_eq_true_eq, decide_eq_true_eq] at hdigit
  exact hdigit

/-- A number is read back from its digits. -/
theorem decimalValue?_toString (n : Nat) : Text.decimalValue? (toString n).toList = some n := by
  have hfold (cs : List Char) (start : Nat) (hcs : ∀ c ∈ cs, '0' ≤ c ∧ c ≤ '9') : cs.foldlM
      (fun n c => (Text.asciiDigit? c).map (10 * n + ·)) start =
      some (Nat.ofDigitChars 10 cs start) := by
    induction cs generalizing start with
    | nil => rfl
    | cons c cs ih =>
      obtain ⟨hc, hcs⟩ := List.forall_mem_cons.mp hcs
      rw [List.foldlM_cons, Text.asciiDigit?, if_pos hc]
      exact ih _ hcs
  have hvalue := hfold (toString n).toList 0 fun c hc => isDigit_of_mem_toString hc
  have hne : (toString n).toList ≠ [] := by
    rw [toList_toString]
    exact Nat.toDigits_ne_nil
  cases hdigits : (toString n).toList with
  | nil => exact absurd hdigits hne
  | cons c cs =>
    rw [hdigits] at hvalue
    rw [Text.decimalValue?, hvalue, ← hdigits, toList_toString, Nat.ofDigitChars_toDigits
      (by decide) (by decide)]
    exact List.cons_ne_nil c cs

theorem toNat_of_digit (h : '0' ≤ c ∧ c ≤ '9') : 0x30 ≤ c.toNat ∧ c.toNat ≤ 0x39 := ⟨h.1, h.2⟩

theorem textIsDigit_of_digit (h : '0' ≤ c ∧ c ≤ '9') : Text.isDigit c = true := by
  obtain ⟨hle, hge⟩ := toNat_of_digit h
  unfold Text.isDigit Text.digitStretches
  rw [Text.inStretches, if_neg (by omega), Text.inStretches, if_pos (by omega), Bool.not_false]

theorem symbol?_digit (h : '0' ≤ c ∧ c ≤ '9') (rest : List Char) :
    Lexeme.symbol? (c :: rest) = none := by
  have hheads : ∀ k ∈ TokenKind.doubleSymbols ++ TokenKind.singleSymbols,
      k.text.toList.head?.all fun d => ¬('0' ≤ d ∧ d ≤ '9') := by decide
  refine symbol?_eq_none (fun k hk hhead => ?_) rest
  have hall := hheads k hk
  rw [hhead, Option.all_some] at hall
  exact of_decide_eq_true hall h

theorem gapWidth_digit (h : '0' ≤ c ∧ c ≤ '9') (rest : List Char) :
    gapWidth .blank (c :: rest) = 0 := by
  obtain ⟨hle, hge⟩ := toNat_of_digit h
  refine gapWidth_eq_zero ?_ ?_ rest
  · by_contra hblank
    have hblanks : ∀ n ∈ covered false 0 Text.blankStretches, n < 0x30 ∨ 0x39 < n := by decide
    have hout := hblanks _ (mem_covered_of_isBlank (Bool.not_eq_false _ ▸ hblank))
    omega
  · rintro rfl
    exact absurd hle (by decide)

theorem first?_numeral (hcs : ∀ d ∈ c :: cs, '0' ≤ d ∧ d ≤ '9') (rest : List Char) :
    Lexeme.first? (c :: cs ++ ' ' :: rest) = some ⟨.integer, c :: cs, cs.length + 1⟩ := by
  obtain ⟨hc, hcs⟩ := List.forall_mem_cons.mp hcs
  obtain ⟨hle, hge⟩ := toNat_of_digit hc
  have hne (d : Char) (hd : d.toNat < 0x30) : c ≠ d := by
    rintro rfl
    omega
  have hword : ¬isWordStart c = true := by
    rw [IsWord.isWordStart_of_lt (by omega)]
    nofun
  have hdigits :=
    takeWhile_before_blank (fun d hd => textIsDigit_of_digit (hcs d hd)) (by decide) rest
  rw [List.cons_append, Lexeme.first?, if_neg (hne endMark (by decide)), Lexeme.startingWith,
    symbol?_digit hc]
  dsimp only
  rw [if_neg (hne '\x22' (by decide)), if_neg (hne '\x27' (by decide)), if_neg hword,
    if_pos (textIsDigit_of_digit hc), hdigits]
  rfl

/-- What is printed is written between double quotes. -/
theorem escape_eq (c : Char) : escape c = Literal.escape '\x22' c := by
  unfold escape Literal.escape endMark
  split <;> simp_all

theorem source_quoted (contents : String) :
    source (quoted contents) = Literal.write '\x22' contents.toList := by
  have hescape : escape = Literal.escape '\x22' := funext escape_eq
  rw [Literal.write, ← hescape]
  rfl

/-! ## Tokens -/

/-- The first token of its text, if a blank follows. -/
def Found (t : Token) : Prop :=
  ∀ rest, gapWidth .blank (source t ++ ' ' :: rest) = 0 ∧
    Lexeme.first? (source t ++ ' ' :: rest) = some ⟨t.kind, t.text.toList, (source t).length⟩

theorem found_symbol (h : kind ∈ TokenKind.doubleSymbols ++ TokenKind.singleSymbols) :
    Found (fixed kind) := by
  intro rest
  -- Two characters decide which symbol it is. The second one is known: it is the blank, if not part
  -- of the symbol.
  fin_cases h <;> exact ⟨rfl, rfl⟩

theorem found_word (hkind : t.kind ≠ .string) (hword : IsWord t.text)
    (hwordKind : Lexeme.wordKind t.text.toList = t.kind) : Found t := by
  obtain ⟨c, cs, htext, hc, hcs⟩ := hword
  intro rest
  rw [source, if_neg hkind, htext, List.cons_append]
  refine ⟨gapWidth_word hc _, ?_⟩
  rw [← List.cons_append, first?_word hc hcs, ← htext, hwordKind, htext]
  rfl

theorem found_keyword (h : kind ∈ TokenKind.keywords) : Found (fixed kind) := by
  have hall : ∀ k ∈ TokenKind.keywords, k ≠ .string ∧ Lexeme.wordKind k.text.toList = k ∧
      k.text.toList.head?.all isWordStart ∧ k.text.toList.tail.all isWordPart ∧
      k.text.toList ≠ [] := by
    decide
  obtain ⟨hkind, hwordKind, hstart, hparts, hne⟩ := hall kind h
  refine found_word hkind ?_ hwordKind
  cases htext : kind.text.toList with
  | nil => exact absurd htext hne
  | cons c cs =>
    rw [htext] at hstart hparts
    exact ⟨c, cs, htext, hstart, List.all_eq_true.mp hparts⟩

theorem found_numeral (n : Nat) : Found (numeral n) := by
  intro rest
  have hsource : source (numeral n) = (toString n).toList := rfl
  rw [hsource]
  cases hdigits : (toString n).toList with
  | nil =>
    rw [toList_toString] at hdigits
    exact absurd hdigits Nat.toDigits_ne_nil
  | cons c cs =>
    have hcs : ∀ d ∈ c :: cs, '0' ≤ d ∧ d ≤ '9' :=
      fun d hd => isDigit_of_mem_toString (hdigits ▸ hd)
    refine ⟨gapWidth_digit (hcs c List.mem_cons_self) _, ?_⟩
    rw [first?_numeral hcs, show (numeral n).text.toList = c :: cs from hdigits]
    rfl

theorem found_quoted (contents : String) : Found (quoted contents) := by
  intro rest
  rw [source_quoted]
  exact first?_write rfl contents.toList (' ' :: rest)

theorem first?_source (h : Spelled t) : Found t := by
  cases h with
  | symbol h => exact found_symbol h
  | keyword h => exact found_keyword h
  | name h => exact found_word nofun h.1 (wordKind_identifier h)
  | numeral n => exact found_numeral n
  | quoted contents => exact found_quoted contents

/-- The text of a list of tokens has these tokens. The reader is in front of it, or in front of the
blank that stands there. -/
theorem spelling_ofCursor (hts : ∀ t ∈ ts, Spelled t) (c : Cursor)
    (hc : c.rest = render ts ∨ c.rest = ' ' :: render ts) :
    (TokenStream.ofCursor c).tokens.map Token.spelling = ts.map Token.spelling := by
  induction ts generalizing c with
  | nil =>
    have hrest : c.skipGap.rest = [] := by
      rcases hc with hc | hc <;> rw [Cursor.skipGap, Cursor.rest_advanceBy, hc] <;> rfl
    rw [TokenStream.ofCursor_of_none (by rw [hrest]; rfl)]
  | cons t ts ih =>
    obtain ⟨ht, hts⟩ := List.forall_mem_cons.mp hts
    have hrender : render (t :: ts) = source t ++ ' ' :: render ts := by simp [render]
    obtain ⟨hgap, hfirst⟩ := first?_source ht (render ts)
    have hrest : c.skipGap.rest = source t ++ ' ' :: render ts := by
      rcases hc with hc | hc
      · rw [Cursor.skipGap, Cursor.rest_advanceBy, hc, hrender, hgap, List.drop_zero]
      · have hblank : gapWidth .blank (' ' :: (source t ++ ' ' :: render ts)) = 1 := by
          rw [gapWidth, if_pos (by decide), hgap]
          · simp
          · simp
        rw [Cursor.skipGap, Cursor.rest_advanceBy, hc, hrender, hblank]
        rfl
    have hafter : (c.skipGap.advanceBy (source t).length).rest = ' ' :: render ts := by
      rw [Cursor.rest_advanceBy, hrest, List.drop_left]
    rw [TokenStream.ofCursor_of_some (hrest ▸ hfirst), List.map_cons, List.map_cons,
      ih hts _ (.inr hafter)]
    simp [Token.spelling]

theorem spelling_render (hts : ∀ t ∈ ts, Spelled t) :
    (TokenStream.ofText (render ts)).tokens.map Token.spelling = ts.map Token.spelling :=
  spelling_ofCursor hts _ (.inl rfl)

end CSubset.Printing
