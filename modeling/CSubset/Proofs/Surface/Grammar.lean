import CSubset.Token
import Mathlib.Computability.Language
import Mathlib.Data.Nat.Digits.Defs
import Mathlib.Order.CompletePartialOrder

/-!
# The grammar

The language of each nonterminal is the least one that satisfies the rules. A rule is a language
over tokens: a product is a sequence, a sum a choice, and a star a repetition. The rules say what is
a program and nothing about how to read it: the statement rule does not say which `if` an `else`
belongs to, and operators have no precedence.
-/

namespace CSubset.Grammar

open Computability

inductive Nonterminal where
  | program | external | vardecl | type | declarator | params | block | stmt
  | expr | assign | binary | unary | primary | args
  deriving DecidableEq, Repr

/-! ## Tokens -/

/-- One token of the given kind. -/
def word (kind : TokenKind) : Language Token := {w | ∃ t : Token, t.kind = kind ∧ w = [t]}

/-- The number that a list of digits stands for. -/
def numeral (digits : List Char) : Nat :=
  Nat.ofDigits 10 (digits.reverse.map fun c => c.toNat - '0'.toNat)

/-- An integer of ASCII digits that is not larger than the bound. -/
def integer (bound : Nat) : Language Token :=
  {w | ∃ t : Token, t.kind = .integer ∧ t.text.toList ≠ [] ∧
    (∀ c ∈ t.text.toList, '0' ≤ c ∧ c ≤ '9') ∧ numeral t.text.toList ≤ bound ∧ w = [t]}

/-- A character literal with exactly one character. -/
def character : Language Token :=
  {w | ∃ t : Token, t.kind = .character ∧ t.text.toList.length = 1 ∧ w = [t]}

/-- The eighteen binary operators. -/
def operators : List TokenKind :=
  [.plus, .minus, .star, .slash, .percent, .ampersand, .pipe, .caret, .shiftLeft, .shiftRight,
    .less, .lessEqual, .greater, .greaterEqual, .equal, .notEqual, .andAnd, .orOr]

def operator : Language Token := {w | ∃ t : Token, t.kind ∈ operators ∧ w = [t]}

/-- The token lists that do not begin with a token of the given kind. -/
def notFirst (kind : TokenKind) : Language Token := {w | ∀ t ∈ w.head?, t.kind ≠ kind}

/-! ## Rules -/

def opt (l : Language Token) : Language Token := 1 + l

/-- The right side of each rule, when the nonterminals in it stand for the languages `ρ`. -/
def rule (ρ : Nonterminal → Language Token) : Nonterminal → Language Token
  | .program => (ρ .external)∗
  | .external =>
    ρ .type * ρ .declarator * word .leftParen * ρ .params * word .rightParen *
      (ρ .block + word .semicolon)
      + ρ .vardecl
  | .vardecl =>
    ρ .type * ρ .declarator * opt (word .assign * ρ .assign)
      * (word .comma * ρ .declarator * opt (word .assign * ρ .assign))∗ * word .semicolon
  | .type => opt (word .kwConst) * (word .kwInt + word .kwChar + word .kwVoid) * opt (word .kwConst)
  | .declarator => (word .star)∗ * word .identifier
  | .params =>
    1 + word .kwVoid + ρ .type * ρ .declarator * (word .comma * ρ .type * ρ .declarator)∗ ⊓
      notFirst .kwVoid
  | .block => word .leftBrace * (ρ .stmt)∗ * word .rightBrace
  | .stmt =>
    word .kwReturn * opt (ρ .expr) * word .semicolon
      + ρ .block + word .semicolon + ρ .vardecl + ρ .expr * word .semicolon
      + word .kwWhile * word .leftParen * ρ .expr * word .rightParen * ρ .stmt
      + word .kwIf * word .leftParen * ρ .expr * word .rightParen * ρ .stmt * opt
        (word .kwElse * ρ .stmt)
  | .expr => ρ .assign
  | .assign => ρ .binary * opt (word .assign * ρ .assign)
  | .binary => ρ .unary * (operator * ρ .unary)∗
  | .unary => word .minus * (ρ .unary + integer 2147483648) + word .plus * ρ .unary + ρ .primary
  | .primary =>
    integer 2147483647 + character + word .string
      + word .identifier * opt (word .leftParen * ρ .args * word .rightParen)
      + word .leftParen * ρ .expr * word .rightParen
  | .args => opt (ρ .assign * (word .comma * ρ .assign)∗ * opt (word .comma))

/-- A list of tokens is derived from a nonterminal if it is in the right side of its rule, with
languages of derived lists for the nonterminals there. -/
inductive Derives : Nonterminal → List Token → Prop where
  | intro {n : Nonterminal} {w : List Token} (ρ : Nonterminal → Language Token)
    (hρ : ∀ m u, u ∈ ρ m → Derives m u) (h : w ∈ rule ρ n) : Derives n w

/-- What is derived from a nonterminal. -/
def language (n : Nonterminal) : Language Token := {w | Derives n w}

section Membership

variable {t : Token} {kind : TokenKind} {v w : List Token} {l m : Language Token}

theorem singleton_mem_word_iff : [t] ∈ word kind ↔ t.kind = kind := by
  constructor
  · rintro ⟨u, hu, heq⟩
    rw [List.head_eq_of_cons_eq heq]
    exact hu
  · intro h
    exact ⟨t, h, rfl⟩

theorem cons_mem_word_mul (ht : t.kind = kind) (hw : w ∈ l) : t :: w ∈ word kind * l :=
  Language.append_mem_mul (singleton_mem_word_iff.mpr ht) hw

theorem nil_mem_opt (l : Language Token) : [] ∈ opt l := .inl rfl

theorem mem_opt_of_mem (h : w ∈ l) : w ∈ opt l := .inr h

theorem append_mem_kstar (hv : v ∈ l) (hw : w ∈ l∗) : v ++ w ∈ l∗ :=
  mul_kstar_le_kstar (a := l) (Language.append_mem_mul hv hw)

theorem append_mem_kstar_mul (hv : v ∈ l) (hw : w ∈ l∗ * m) : v ++ w ∈ l∗ * m := by
  obtain ⟨x, hx, y, hy, rfl⟩ := hw
  rw [← List.append_assoc]
  exact Language.append_mem_mul (append_mem_kstar hv hx) hy

end Membership

/-! ## The least solution -/

/-- More words for the parts give more words for the whole. -/
theorem rule_mono {ρ ρ' : Nonterminal → Language Token} (h : ∀ n, ρ n ≤ ρ' n) (n : Nonterminal) :
    rule ρ n ≤ rule ρ' n := by
  cases n with
  | type | declarator => exact le_rfl
  | expr => exact h _
  | _ =>
    simp only [rule, opt]
    gcongr <;> apply h

theorem rule_language_le (n : Nonterminal) : rule language n ≤ language n := fun _ hw =>
  .intro language (fun _ _ hu => hu) hw

/-- Languages that are closed under the rules contain all that is derived. -/
theorem language_le {ρ : Nonterminal → Language Token} (hρ : ∀ n, rule ρ n ≤ ρ n)
    (n : Nonterminal) : language n ≤ ρ n := by
  intro w hw
  induction hw with
  | intro ρ' _ h ih => exact hρ _ (rule_mono (fun m u hu => ih m u hu) _ h)

end CSubset.Grammar
