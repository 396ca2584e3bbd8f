import CSubset.Operator
import CSubset.Position

/-!
# Tokens

The kinds of token, how each is called in messages, and which of them name types or operators.
-/

namespace CSubset

inductive TokenKind where
  | eof | illegal
  | identifier | integer | character | string
  | kwInt | kwChar | kwVoid | kwConst | kwReturn | kwIf | kwElse | kwWhile
  | leftParen | rightParen | leftBrace | rightBrace | semicolon | comma | assign
  | plus | minus | star | slash | percent
  | shiftLeft | shiftRight
  | ampersand | andAnd | orOr | pipe | caret
  | equal | notEqual | less | lessEqual | greater | greaterEqual
  deriving DecidableEq, Repr

instance : Enumeration TokenKind where
  label := "token"
  members :=
    [.eof, .illegal, .identifier, .integer, .character, .string,
      .kwInt, .kwChar, .kwVoid, .kwConst, .kwReturn, .kwIf, .kwElse, .kwWhile,
      .leftParen, .rightParen, .leftBrace, .rightBrace, .semicolon, .comma, .assign,
      .plus, .minus, .star, .slash, .percent, .shiftLeft, .shiftRight,
      .ampersand, .andAnd, .orOr, .pipe, .caret,
      .equal, .notEqual, .less, .lessEqual, .greater, .greaterEqual]
  text
    | .eof => "EOF"
    | .illegal => "ILLEGAL"
    | .identifier => "identifier"
    | .integer => "integer"
    | .character => "char literal"
    | .string => "string literal"
    | .kwInt => "int"
    | .kwChar => "char"
    | .kwVoid => "void"
    | .kwConst => "const"
    | .kwReturn => "return"
    | .kwIf => "if"
    | .kwElse => "else"
    | .kwWhile => "while"
    | .leftParen => "("
    | .rightParen => ")"
    | .leftBrace => "\x7b"
    | .rightBrace => "\x7d"
    | .semicolon => ";"
    | .comma => ","
    | .assign => "="
    | .plus => "+"
    | .minus => "-"
    | .star => "*"
    | .slash => "/"
    | .percent => "%"
    | .shiftLeft => "<<"
    | .shiftRight => ">>"
    | .ampersand => "&"
    | .andAnd => "&&"
    | .orOr => "||"
    | .pipe => "|"
    | .caret => "^"
    | .equal => "=="
    | .notEqual => "!="
    | .less => "<"
    | .lessEqual => "<="
    | .greater => ">"
    | .greaterEqual => ">="

namespace TokenKind

def text (k : TokenKind) : String := Enumeration.text k

/-- The words that are not identifiers. -/
def keywords : List TokenKind :=
  [.kwInt, .kwChar, .kwVoid, .kwConst, .kwReturn, .kwIf, .kwElse, .kwWhile]

/-- The kinds that are written with two special characters. -/
def doubleSymbols : List TokenKind :=
  [.equal, .notEqual, .andAnd, .orOr, .shiftLeft, .lessEqual, .shiftRight, .greaterEqual]

/-- The kinds that are written with one special character. -/
def singleSymbols : List TokenKind :=
  [.leftParen, .rightParen, .leftBrace, .rightBrace, .semicolon, .comma, .assign,
    .plus, .minus, .star, .slash, .percent, .caret, .ampersand, .pipe, .less, .greater]

/-- The basic type that a keyword names. -/
def typeTag? : TokenKind → Option TypeTag
  | .kwInt => some .int
  | .kwChar => some .char
  | .kwVoid => some .void
  | _ => none

/-- Whether a type can begin with this token. -/
def startsType (k : TokenKind) : Bool := k = .kwConst || k.typeTag?.isSome

/-- The binary operator that a token stands for between two operands. -/
def operator? : TokenKind → Option Operator
  | .plus => some (.arith .add)
  | .minus => some (.arith .sub)
  | .star => some (.arith .mul)
  | .slash => some (.arith .div)
  | .percent => some (.arith .mod)
  | .ampersand => some (.bit .and)
  | .pipe => some (.bit .or)
  | .caret => some (.bit .xor)
  | .shiftLeft => some (.bit .shl)
  | .shiftRight => some (.bit .shr)
  | .less => some (.cmp .lt)
  | .greater => some (.cmp .gt)
  | .lessEqual => some (.cmp .le)
  | .greaterEqual => some (.cmp .ge)
  | .equal => some (.cmp .eq)
  | .notEqual => some (.cmp .ne)
  | .andAnd => some (.bool .and)
  | .orOr => some (.bool .or)
  | _ => none

end TokenKind

/-- A token: its kind, its text and the position of its first character. The text of a literal is
its decoded contents. -/
structure Token where
  kind : TokenKind
  text : String
  pos : Pos
  deriving DecidableEq, Repr

end CSubset
