import CSubset.Proofs.Token.Words
import CSubset.Tree.OfSurface

/-!
# Writing trees as text

The trees that can be written (`Printing.Program`), the tokens that they are written with
(`programTokens`) and the text of these tokens (`render`).

Parentheses stand only where they are needed: an expression is printed for a context, which says how
tightly the operators have to bind that may stand there without parentheses (`BinaryForm.rank`).
Operators of one level associate to the left, so the context on the right is one higher; an
assignment associates to the right, so the context on the left is one higher.
-/

namespace CSubset

/-! ## Operators -/

/-- The token that stands for an operator. -/
def Operator.symbol : Operator → TokenKind
  | .arith .add => .plus
  | .arith .sub => .minus
  | .arith .mul => .star
  | .arith .div => .slash
  | .arith .mod => .percent
  | .bit .and => .ampersand
  | .bit .or => .pipe
  | .bit .xor => .caret
  | .bit .shl => .shiftLeft
  | .bit .shr => .shiftRight
  | .cmp .lt => .less
  | .cmp .gt => .greater
  | .cmp .le => .lessEqual
  | .cmp .ge => .greaterEqual
  | .cmp .eq => .equal
  | .cmp .ne => .notEqual
  | .bool .and => .andAnd
  | .bool .or => .orOr

def TypeTag.keyword : TypeTag → TokenKind
  | .void => .kwVoid
  | .int => .kwInt
  | .char => .kwChar

namespace BinaryForm

/-- The operator of a form, unless it is an assignment. -/
def operator? : BinaryForm → Option Operator
  | .arithmetic (.known op) => some (.arith op)
  | .bitwise (.known op) => some (.bit op)
  | .comparison (.known op) => some (.cmp op)
  | .boolean (.known op) => some (.bool op)
  | _ => none

/-- How tightly an expression of this form binds; an assignment binds least. -/
def rank (form : BinaryForm) : Nat :=
  match form.operator? with
  | some op => op.level + 1
  | none => 0

def leftContext (form : BinaryForm) : Nat :=
  match form.operator? with
  | some op => op.level + 1
  | none => 1

def rightContext (form : BinaryForm) : Nat :=
  match form.operator? with
  | some op => op.level + 2
  | none => 0

def symbol (form : BinaryForm) : TokenKind :=
  match form.operator? with
  | some op => op.symbol
  | none => .assign

end BinaryForm

namespace Printing

/-! ## The trees -/

/-- A word that is no keyword. -/
def IsIdentifier (x : String) : Prop := IsWord x ∧ ∀ k ∈ TokenKind.keywords, k.text ≠ x

theorem isWord_iff {x : String} :
    IsWord x ↔ x.toList.head?.any Lexeme.isWordStart = true ∧
      x.toList.tail.all Lexeme.isWordPart = true := by
  unfold IsWord
  cases x.toList with
  | nil => simp
  | cons c rest => simp [and_assoc]

instance (x : String) : Decidable (IsIdentifier x) :=
  decidable_of_iff
    ((x.toList.head?.any Lexeme.isWordStart = true ∧ x.toList.tail.all Lexeme.isWordPart = true) ∧
    ∀ k ∈ TokenKind.keywords, k.text ≠ x) (and_congr_left' isWord_iff.symm)

/-- The bytes of a text. -/
def IsText (bytes : List UInt8) : Prop := ∃ text : String, bytes = Text.Utf8.encode text

section Trees

/-! The trees of the printer, with string constants of which `str` holds. -/

variable {σ : Type} (str : List UInt8 → Prop)

inductive Expression : Tree σ → Prop
  | int (l : σ) (value : Int32) : Expression (.leaf l (.intConst value))
  | str (l : σ) {contents : List UInt8} (hcontents : str contents) :
    Expression (.leaf l (.strConst contents))
  | name (l : σ) {x : String} (hx : IsIdentifier x) : Expression (.leaf l (.names [x] 0))
  | call (l l' : σ) {callee : String} {args : List (Tree σ)} (hcallee : IsIdentifier callee)
    (hargs : ∀ a ∈ args, Expression a) :
    Expression (.unary l (.call callee) (some (.seq l' .parameters (args.map some))))
  | operation (l : σ) (op : Operator) {left right : Tree σ} (hleft : Expression left)
    (hright : Expression right) :
    Expression (.binary l (Surface.binaryForm op) (some left) (some right))
  | assign (l : σ) {left right : Tree σ} (hleft : Expression left) (hright : Expression right) :
    Expression (.binary l .assign (some left) (some right))

/-- A type and one name of that type, with any number of stars. -/
inductive Typing : Tree σ → Tree σ → Prop
  | mk (l l' : σ) (tag : TypeTag) (isConst : Bool) {x : String} (hx : IsIdentifier x)
    (stars : Nat) :
    Typing (.leaf l (.type (.known tag) isConst)) (.leaf l' (.names [x] stars))

/-- The bodies of conditions and loops are blocks. -/
inductive Statement : Tree σ → Prop
  | expression {t : Tree σ} (h : Expression str t) : Statement t
  | declaration (l : σ) {type name : Tree σ} (h : Typing type name) :
    Statement (.binary l .forward (some type) (some name))
  | ret (l : σ) : Statement (.unary l .ret none)
  | retValue (l : σ) {value : Tree σ} (h : Expression str value) : Statement
    (.unary l .ret (some value))
  | block (l : σ) {stmts : List (Tree σ)} (h : ∀ s ∈ stmts, Statement s) : Statement
    (.seq l .block (stmts.map some))
  | ifThen (l l' : σ) {cond : Tree σ} {body : List (Tree σ)} (hcond : Expression str cond)
    (hbody : ∀ s ∈ body, Statement s) :
    Statement (.binary l .ifThen (some cond) (some (.seq l' .block (body.map some))))
  | loop (l l' : σ) {cond : Tree σ} {body : List (Tree σ)} (hcond : Expression str cond)
    (hbody : ∀ s ∈ body, Statement s) :
    Statement (.binary l .while (some cond) (some (.seq l' .block (body.map some))))
  | ifThenElse (l l' l'' : σ) {cond : Tree σ} {thenBody elseBody : List (Tree σ)}
    (hcond : Expression str cond)
    (hthen : ∀ s ∈ thenBody, Statement s) (helse : ∀ s ∈ elseBody, Statement s) :
    Statement (.ternary l .ifThenElse (some cond) (some (.seq l' .block (thenBody.map some)))
      (some (.seq l'' .block (elseBody.map some))))

inductive Parameter : Tree σ → Prop
  | mk (l : σ) {type name : Tree σ} (h : Typing type name) : Parameter
    (.binary l .declaration (some type) (some name))

/-- The first parameter does not have the type that stands for an empty list. -/
def FirstNotVoid (params : List (Tree σ)) : Prop :=
  ∀ l l' name,
    params.head? ≠ some (.binary l .declaration (some (.leaf l' (.type (.known .void) false))) name)

inductive Signature : Tree σ → Tree σ → Prop
  | mk (l l' l'' : σ) (tag : TypeTag) (isConst : Bool) {name : String} {params : List (Tree σ)}
    (hname : IsIdentifier name) (hparams : ∀ p ∈ params, Parameter p)
      (hfirst : FirstNotVoid params) :
    Signature (.leaf l (.type (.known tag) isConst))
      (.unary l' (.signature name) (some (.seq l'' .parameters (params.map some))))

inductive Member : Tree σ → Prop
  | declaration (l : σ) {type name : Tree σ} (h : Typing type name) :
    Member (.binary l .forward (some type) (some name))
  | prototype (l : σ) {type signature : Tree σ} (h : Signature type signature) :
    Member (.binary l .forward (some type) (some signature))
  | definition (l l' : σ) {type signature : Tree σ} {body : List (Tree σ)}
    (h : Signature type signature)
    (hbody : ∀ s ∈ body, Statement str s) :
    Member (.ternary l .definition (some type) (some signature)
      (some (.seq l' .block (body.map some))))

inductive Program : Tree σ → Prop
  | mk (l : σ) {members : List (Tree σ)} (h : ∀ m ∈ members, Member str m) : Program
    (.seq l .program (members.map some))

end Trees

/-! ## The tokens -/

/-- The text with these bytes, if there is one. -/
def textOf (bytes : List UInt8) : String := (String.fromUTF8? ⟨bytes.toArray⟩).getD ""

@[simp] theorem textOf_encode (text : String) : textOf (Text.Utf8.encode text) = text := by
  have hbytes : (⟨(Text.Utf8.encode text).toArray⟩ : ByteArray) = text.toByteArray := by
    simp [Text.Utf8.encode, String.toUTF8]
  rw [textOf, hbytes, String.fromUTF8?, dif_pos text.isValidUTF8, Option.getD_some]
  rfl

/-- A token that always has the same text. -/
def fixed (kind : TokenKind) : Token := ⟨kind, kind.text, .unknown⟩

def named (x : String) : Token := ⟨.identifier, x, .unknown⟩

def numeral (n : Nat) : Token := ⟨.integer, toString n, .unknown⟩

def quoted (contents : String) : Token := ⟨.string, contents, .unknown⟩

def between (left : TokenKind) (ts : List Token) (right : TokenKind) : List Token :=
  fixed left :: (ts ++ [fixed right])

def separated : List (List Token) → List Token
  | [] => []
  | [ts] => ts
  | ts :: more => ts ++ fixed .comma :: separated more

/-- A negative number has a sign in front. -/
def intTokens (value : Int32) : List Token :=
  if value.toInt < 0 then [fixed .minus, numeral value.toInt.natAbs]
    else [numeral value.toInt.natAbs]

section Tokens

variable {σ : Type}

mutual

/-- The tokens of an expression in a context. -/
def exprTokens (context : Nat) : Tree σ → List Token
  | .leaf _ (.intConst value) => intTokens value
  | .leaf _ (.strConst contents) => [quoted (textOf contents)]
  | .leaf _ (.names names _) => names.map named
  | .unary _ (.call callee) args =>
    named callee :: between .leftParen (separated (argTokens args)) .rightParen
  | .binary _ form left right =>
    let ts := operandTokens form.leftContext left ++ fixed form.symbol :: operandTokens
      form.rightContext right
    if context ≤ form.rank then ts else between .leftParen ts .rightParen
  | _ => []

def operandTokens (context : Nat) : Option (Tree σ) → List Token
  | none => []
  | some t => exprTokens context t

def argTokens : Option (Tree σ) → List (List Token)
  | some (.seq _ _ args) => argListTokens args
  | _ => []

def argListTokens : List (Option (Tree σ)) → List (List Token)
  | [] => []
  | a :: as => operandTokens 0 a :: argListTokens as

end

def typeTokens : Option (Tree σ) → List Token
  | some (.leaf _ (.type (.known tag) isConst)) =>
    (if isConst then [fixed .kwConst] else []) ++ [fixed tag.keyword]
  | _ => []

def starTokens : Option (Tree σ) → List Token
  | some (.leaf _ (.names names stars)) =>
    List.replicate stars.toNat (fixed .star) ++ names.map named
  | _ => []

def paramTokens : Option (Tree σ) → List Token
  | some (.binary _ .declaration type name) => typeTokens type ++ starTokens name
  | _ => []

/-- What is declared: a variable, or a function with its parameters. -/
def declaredTokens : Option (Tree σ) → List Token
  | some (.unary _ (.signature name) (some (.seq _ _ params))) =>
    named name :: between .leftParen (separated (params.map paramTokens)) .rightParen
  | name => starTokens name

mutual

def stmtTokens : Tree σ → List Token
  | .seq _ .block stmts => between .leftBrace (blockTokens stmts) .rightBrace
  | .unary _ .ret value => fixed .kwReturn :: (operandTokens 0 value ++ [fixed .semicolon])
  | .binary _ .forward type name => typeTokens type ++ (declaredTokens name ++ [fixed .semicolon])
  | .binary _ .ifThen cond body =>
    fixed .kwIf :: (between .leftParen (operandTokens 0 cond) .rightParen ++ bodyTokens body)
  | .binary _ .while cond body =>
    fixed .kwWhile :: (between .leftParen (operandTokens 0 cond) .rightParen ++ bodyTokens body)
  | .ternary _ .ifThenElse cond thenBody elseBody =>
    fixed .kwIf :: (between .leftParen (operandTokens 0 cond) .rightParen ++
      (bodyTokens thenBody ++ fixed .kwElse :: bodyTokens elseBody))
  | t => exprTokens 0 t ++ [fixed .semicolon]

def bodyTokens : Option (Tree σ) → List Token
  | none => []
  | some t => stmtTokens t

def blockTokens : List (Option (Tree σ)) → List Token
  | [] => []
  | s :: ss => bodyTokens s ++ blockTokens ss

end

def memberTokens : Option (Tree σ) → List Token
  | some (.ternary _ .definition type signature body) =>
    typeTokens type ++ (declaredTokens signature ++ bodyTokens body)
  | member => bodyTokens member

def programTokens : Tree σ → List Token
  | .seq _ .program members => members.flatMap memberTokens
  | _ => []

end Tokens

/-! ## The text -/

/-- How a character is written in a literal. -/
def escape : Char → List Char
  | '\n' => ['\\', 'n']
  | '\t' => ['\\', 't']
  | '\x00' => ['\\', '0']
  | '\\' => ['\\', '\\']
  | '\x22' => ['\\', '\x22']
  | c => [c]

/-- How a token is written. -/
def source (t : Token) : List Char :=
  if t.kind = .string then '\x22' :: (t.text.toList.flatMap escape ++ ['\x22']) else t.text.toList

/-- The text of a list of tokens, with a blank after each of them. -/
def render (ts : List Token) : List Char := ts.flatMap fun t => source t ++ [' ']

/-- A tree as text. -/
def print {σ : Type} (t : Tree σ) : List Char := render (programTokens t)

end Printing

end CSubset
