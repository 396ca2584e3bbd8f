import CSubset.IR.Name
import CSubset.Proofs.Token.Partition

/-!
# Words

A word begins with a letter or an underscore and goes on with letters, digits and underscores. Every
identifier of a text is one (`TokenStream.word_of_identifier`). So an identifier has no dot in it,
and it cannot be taken for a number (`IsWord.shown_eq`).
-/

namespace CSubset

open Lexeme (isWordStart isWordPart)

/-- What an identifier of a text looks like. -/
def IsWord (name : String) : Prop :=
  ∃ c rest, name.toList = c :: rest ∧ isWordStart c = true ∧ ∀ d ∈ rest, isWordPart d = true

namespace IsWord

variable {name : String} {c : Char}

theorem dot_not_mem (h : IsWord name) : '.' ∉ name.toList := by
  obtain ⟨c, rest, hname, hc, hrest⟩ := h
  have hstart : isWordStart '.' = false := by decide +kernel
  have hpart : isWordPart '.' = false := by decide +kernel
  rw [hname]
  intro hmem
  rcases List.mem_cons.mp hmem with rfl | hmem
  · rw [hstart] at hc
    cases hc
  · have hdot := hrest '.' hmem
    rw [hpart] at hdot
    cases hdot

/-- The ASCII characters in front of the capital letters begin no word. -/
theorem isWordStart_of_lt (hc : c.toNat < 0x41) : isWordStart c = false := by
  have hletter : Text.isLetter c = false := by
    -- the first letter is the capital A
    unfold Text.isLetter Text.letterStretches
    rw [Text.inStretches, if_pos hc]
  have hne : c ≠ '_' := by
    rintro rfl
    exact absurd hc (by decide)
  simp [isWordStart, hletter, hne]

theorem decimalValue?_eq_none (hc : isWordStart c = true) (rest : List Char) :
    Text.decimalValue? (c :: rest) = none := by
  have hdigit : Text.asciiDigit? c = none := by
    unfold Text.asciiDigit?
    rw [if_neg]
    rintro ⟨-, hle⟩
    have hlt : c.toNat < 0x41 := Nat.lt_of_le_of_lt (show c.toNat ≤ '9'.toNat from hle) (by decide)
    rw [isWordStart_of_lt hlt] at hc
    cases hc
  simp [Text.decimalValue?, hdigit]

theorem signedDecimal?_eq_none (hc : isWordStart c = true) (rest : List Char) :
    Text.signedDecimal? (c :: rest) = none := by
  have hsign (d : Char) (hd : d.toNat < 0x41) : c ≠ d := by
    rintro rfl
    rw [isWordStart_of_lt hd] at hc
    cases hc
  unfold Text.signedDecimal?
  split
  next heq => exact absurd (List.cons.inj heq).1 (hsign '+' (by decide))
  next heq => exact absurd (List.cons.inj heq).1 (hsign '-' (by decide))
  next => rw [decimalValue?_eq_none hc, Option.map_none]

/-- A word is shown as it is. -/
theorem shown_eq (h : IsWord name) : IR.Name.shown name = name := by
  obtain ⟨c, rest, hname, hc, -⟩ := h
  have hempty : name.isEmpty = false := by
    cases hempty : name.isEmpty with
    | false => rfl
    | true =>
      rw [String.isEmpty_iff.mp hempty] at hname
      cases hname
  simp [IR.Name.shown, hempty, hname, signedDecimal?_eq_none hc]

end IsWord

/-! ## Identifiers of a text -/

theorem Lexeme.symbol?_ne_identifier (text : List Char) :
    Lexeme.symbol? text ≠ some .identifier := by
  intro h
  exact absurd (List.mem_of_find?_eq_some h) (by decide)

theorem Lexeme.literal_ne_identifier {kind : TokenKind} (hkind : kind ≠ .identifier) (l : Literal) :
    (Lexeme.literal kind l).kind ≠ .identifier := by
  unfold Lexeme.literal
  dsimp only
  split
  · exact hkind
  · nofun

/-- A lexeme that is an identifier is a word. -/
theorem Lexeme.word_of_startingWith {c : Char} {rest : List Char} {l : Lexeme}
    (h : Lexeme.startingWith c rest = l) (hkind : l.kind = .identifier) :
    IsWord (String.ofList l.text) := by
  unfold Lexeme.startingWith at h
  split at h
  next kind hsymbol =>
    subst h
    obtain rfl : kind = .identifier := hkind
    exact absurd hsymbol (Lexeme.symbol?_ne_identifier _)
  next =>
    split at h
    next => exact absurd hkind (h ▸ Lexeme.literal_ne_identifier (by decide) _)
    next =>
      split at h
      next => exact absurd hkind (h ▸ Lexeme.literal_ne_identifier (by decide) _)
      next =>
        split at h
        next hc =>
          subst h
          refine ⟨c, rest.takeWhile isWordPart, by simp [Lexeme.spelled], hc, fun d hd => ?_⟩
          exact List.all_eq_true.mp List.all_takeWhile d hd
        next =>
          split at h
          next =>
            subst h
            cases hkind
          next =>
            subst h
            cases hkind

theorem TokenStream.word_of_ofCursor (c : Cursor) :
    ∀ t ∈ (TokenStream.ofCursor c).tokens, t.kind = .identifier → IsWord t.text := by
  induction c using TokenStream.ofCursor.induct with
  | case1 c hnone =>
    rw [TokenStream.ofCursor_of_none hnone]
    nofun
  | case2 c lexeme hsome ih =>
    rw [TokenStream.ofCursor_of_some hsome]
    intro t ht hkind
    rcases List.mem_cons.mp ht with rfl | ht
    · cases hrest : c.skipGap.rest with
      | nil => simp [hrest, Lexeme.first?] at hsome
      | cons d rest =>
        rw [hrest, Lexeme.first?] at hsome
        split at hsome
        next => cases hsome
        next => exact Lexeme.word_of_startingWith (Option.some.inj hsome) hkind
    · exact ih t ht hkind

theorem TokenStream.word_of_identifier (text : List Char) :
    ∀ t ∈ (TokenStream.ofText text).tokens, t.kind = .identifier → IsWord t.text :=
  TokenStream.word_of_ofCursor (Cursor.start text)

end CSubset
