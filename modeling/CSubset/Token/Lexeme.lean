import CSubset.Text.Blank
import CSubset.Text.Digit
import CSubset.Text.Letter
import CSubset.Token

/-!
# Lexemes

What stands at the front of a text: how many characters of it only separate tokens (`gapWidth`), and
which token comes first (`Lexeme.first?`). Both are functions of the text alone; positions are added
by `CSubset.TokenStream`.

A zero character ends the text wherever it stands, except after the backslash of an escape.
-/

namespace CSubset

/-- The character that ends a text. -/
def endMark : Char := '\x00'

/-! ## Gaps -/

/-- Where in a gap between tokens the reader is. -/
inductive Gap where
  | blank
  | lineComment
  | blockComment
  deriving DecidableEq, Repr

/-- The number of characters up to the next token: blanks, comments to the end of a line, and
comments between `/*` and the next `*/`. An unclosed comment reaches to the end of the text. -/
def gapWidth : Gap → List Char → Nat
  | _, [] => 0
  | .blank, '/' :: '/' :: rest => 2 + gapWidth .lineComment rest
  | .blank, '/' :: '*' :: rest => 2 + gapWidth .blockComment rest
  | .blank, c :: rest => if Text.isBlank c then 1 + gapWidth .blank rest else 0
  | .lineComment, c :: rest =>
    if c = endMark then 0
    else if c = '\n' then 1 + gapWidth .blank rest
    else 1 + gapWidth .lineComment rest
  | .blockComment, '*' :: '/' :: rest => 2 + gapWidth .blank rest
  | .blockComment, c :: rest => if c = endMark then 0 else 1 + gapWidth .blockComment rest

/-! ## Literals -/

/-- The contents of a literal, after the opening quote. -/
structure Literal where
  /-- Whether the closing quote was found on the same line. -/
  closed : Bool
  /-- The decoded characters. -/
  contents : List Char
  /-- How many characters were read, with the closing quote. -/
  width : Nat
  deriving DecidableEq, Repr

namespace Literal

/-- What a character stands for after a backslash. -/
def unescape : Char → Char
  | 'n' => '\n'
  | 't' => '\t'
  | '0' => endMark
  | c => c

def cons (c : Char) (width : Nat) (l : Literal) : Literal :=
  ⟨l.closed, c :: l.contents, width + l.width⟩

/-- Read a literal up to the next bare `quote`, line break or end of the text. A backslash at the
very end escapes the end mark, one character beyond the text. -/
def read (quote : Char) : List Char → Literal
  | [] => ⟨false, [], 0⟩
  | ['\\'] => ⟨false, [endMark], 2⟩
  | '\\' :: c :: rest => (read quote rest).cons (unescape c) 2
  | c :: rest =>
    if c = quote then ⟨true, [], 1⟩
    else if c = endMark ∨ c = '\n' then ⟨false, [], 0⟩
    else (read quote rest).cons c 1

end Literal

/-! ## The first token of a text -/

/-- A token without its position, and how many characters it takes. -/
structure Lexeme where
  kind : TokenKind
  text : List Char
  width : Nat
  deriving DecidableEq, Repr

namespace Lexeme

def isWordStart (c : Char) : Bool := Text.isLetter c || c = '_'

def isWordPart (c : Char) : Bool := Text.isLetter c || Text.isDigit c || c = '_'

/-- The special symbol at the front of a text. Two characters are tried before one. -/
def symbol? (text : List Char) : Option TokenKind :=
  (TokenKind.doubleSymbols ++ TokenKind.singleSymbols).find? (·.text.toList.isPrefixOf text)

/-- A word is a keyword or an identifier. -/
def wordKind (word : List Char) : TokenKind :=
  (TokenKind.keywords.find? (·.text.toList == word)).getD .identifier

/-- A run of characters that the text itself spells. -/
def spelled (kind : TokenKind) (text : List Char) : Lexeme := ⟨kind, text, text.length⟩

/-- A literal of the given kind; one that is not closed is illegal. -/
def literal (kind : TokenKind) (l : Literal) : Lexeme :=
  ⟨if l.closed then kind else .illegal, l.contents, 1 + l.width⟩

/-- The lexeme that begins with `c` and goes on in `rest`. -/
def startingWith (c : Char) (rest : List Char) : Lexeme :=
  match symbol? (c :: rest) with
  | some kind => spelled kind kind.text.toList
  | none =>
    if c = '\x22' then literal .string (Literal.read c rest)
    else if c = '\x27' then literal .character (Literal.read c rest)
    else if isWordStart c then
      let word := c :: rest.takeWhile isWordPart
      spelled (wordKind word) word
    else if Text.isDigit c then spelled .integer (c :: rest.takeWhile Text.isDigit)
    else spelled .illegal [c]

/-- The lexeme at the front of a text that does not begin with a gap, if the text goes on. -/
def first? : List Char → Option Lexeme
  | [] => none
  | c :: rest => if c = endMark then none else some (startingWith c rest)

theorem width_startingWith_pos (c : Char) (rest : List Char) : 0 < (startingWith c rest).width := by
  have hliteral (kind : TokenKind) (l : Literal) : 0 < (literal kind l).width :=
    Nat.lt_add_right _ Nat.zero_lt_one
  have hspelled (kind : TokenKind) (tail : List Char) : 0 < (spelled kind (c :: tail)).width :=
    Nat.succ_pos _
  unfold startingWith
  split
  · rename_i kind _
    cases kind <;> decide
  · split
    · exact hliteral _ _
    · split
      · exact hliteral _ _
      · split
        · exact hspelled _ _
        · split <;> exact hspelled _ _

end Lexeme

end CSubset
