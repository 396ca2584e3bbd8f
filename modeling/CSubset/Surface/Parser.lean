import CSubset.Surface.Precedence
import CSubset.Text.Decimal
import CSubset.Text.Quoted
import CSubset.Token.Stream

/-!
# Reading tokens as a program

    program    = { external }
    external   = type declarator ( '(' params ')' ( block | ';' ) | rest of variables )
    variables  = type declarator rest
    rest       = [ '=' assignment ] ( ',' declarator rest | ';' )
    type       = [ 'const' ] ( 'int' | 'char' | 'void' ) [ 'const' ]
    declarator = { '*' } identifier
    params     = [ 'void' | param { ',' param } ]
    param      = type declarator
    block      = '{' { statement } '}'
    statement  = 'return' [ assignment ] ';'
               | 'if' '(' assignment ')' statement [ 'else' statement ]
               | 'while' '(' assignment ')' statement | block | ';' | variables | assignment ';'
    assignment = chain [ '=' assignment ]
    chain      = unary { operator unary }
    unary      = ( '-' | '+' ) unary | primary
    primary    = integer | character | string | identifier [ '(' args ')' ] | '(' assignment ')'
    args       = [ assignment { ',' assignment } [ ',' ] ]

Every step returns the tokens it leaves with a proof that there are fewer of them, so the recursion
ends with the tokens. The first token that does not fit is the one an error names.
-/

namespace CSubset.Surface

/-- Why a token does not fit. -/
inductive Cause where
  | expected (wanted : TokenKind)
  | expectedType
  | voidNotAlone
  | integerRange
  | badCharacter
  | unexpected
  deriving DecidableEq, Repr

/-- A cause, and the tokens from the one that does not fit. -/
structure Misfit where
  cause : Cause
  rest : List Token
  deriving DecidableEq, Repr

namespace Parser

/-- What was read from the front of `input`, and the rest. -/
structure Step (α : Type) (input : List Token) where
  value : α
  rest : List Token
  shorter : rest.length < input.length

/-- As `Step`, where nothing may have been read. -/
structure Tail (α : Type) (input : List Token) where
  value : α
  rest : List Token
  noLonger : rest.length ≤ input.length

abbrev Parsed (α : Type) (input : List Token) := Except Misfit (Step α input)

abbrev ParsedTail (α : Type) (input : List Token) := Except Misfit (Tail α input)

def fail {α : Type} (cause : Cause) (input : List Token) : Except Misfit α := .error ⟨cause, input⟩

/-- The kind of the first token; the end of the input has one too. -/
def headKind : List Token → TokenKind
  | [] => .eof
  | t :: _ => t.kind

def expect (kind : TokenKind) (input : List Token) : Parsed Token input :=
  match input with
  | [] => fail (.expected kind) []
  | t :: rest => if t.kind = kind then .ok ⟨t, rest, by simp⟩ else fail (.expected kind) (t :: rest)

/-- Read a token of this kind if there is one, and say whether there was. -/
def accept (kind : TokenKind) (input : List Token) : Tail Bool input :=
  match input with
  | [] => ⟨false, [], by simp⟩
  | t :: rest => if t.kind = kind then ⟨true, rest, by simp⟩ else ⟨false, t :: rest, by simp⟩

/-! ## Types and declarators -/

def typeSpec (input : List Token) : Parsed TypeSpec input :=
  match input with
  | [] => fail .expectedType []
  | start :: afterStart =>
    let ⟨leading, r, _⟩ := accept .kwConst (start :: afterStart)
    match r with
    | [] => fail .expectedType []
    | t :: r =>
      match t.kind.typeTag? with
      | none => fail .expectedType (t :: r)
      | some tag =>
        let ⟨trailing, r, _⟩ := accept .kwConst r
        .ok ⟨⟨start.pos, tag, leading || trailing⟩, r, by simp_all; omega⟩

/-- Read the stars and the name. `start` is the position of the first star, once one has been
read. -/
def declaratorFrom (start : Option Pos) (stars : Nat) (input : List Token) :
    Parsed Declarator input :=
  match input with
  | [] => fail (.expected .identifier) []
  | t :: rest =>
    if t.kind = .star then do
      let ⟨d, r, _⟩ ← declaratorFrom (start.getD t.pos) (stars + 1) rest
      return ⟨d, r, by simp; omega⟩
    else if t.kind = .identifier then
      .ok ⟨⟨start.getD t.pos, stars, t.pos, t.text⟩, rest, by simp⟩
    else fail (.expected .identifier) (t :: rest)

def declarator (input : List Token) : Parsed Declarator input := declaratorFrom none 0 input

/-! ## Expressions -/

/-- The value of an integer token after its sign, if it fits into 32 bits. -/
def integerValue? (negative : Bool) (text : String) : Option Int32 := do
  let n ← Text.decimalValue? text.toList
  if negative then
    guard (n ≤ 0x80000000)
    return Int32.ofInt (- n)
  else
    guard (n < 0x80000000)
    return Int32.ofInt n

mutual

def assignment (input : List Token) : Parsed Expr input := do
  let ⟨target, r, _⟩ ← chain input
  if headKind r = .assign then
    let ⟨t, r, _⟩ ← expect .assign r
    let ⟨value, r, _⟩ ← assignment r
    return ⟨.assign t.pos target value, r, by omega⟩
  else return ⟨target, r, by omega⟩
termination_by 6 * input.length + 4

def chain (input : List Token) : Parsed Expr input := do
  let ⟨first, r, _⟩ ← unary input
  let ⟨links, r, _⟩ ← linksFrom r
  return ⟨Link.group Operator.levels first links, r, by omega⟩
termination_by 6 * input.length + 3

def linksFrom (input : List Token) : ParsedTail (List Link) input :=
  match input with
  | [] => .ok ⟨[], [], by simp⟩
  | t :: rest =>
    match t.kind.operator? with
    | none => .ok ⟨[], t :: rest, by simp⟩
    | some op => do
      let ⟨operand, r, _⟩ ← unary rest
      let ⟨links, r, _⟩ ← linksFrom r
      return ⟨⟨t.pos, op, operand⟩ :: links, r, by simp; omega⟩
termination_by 6 * input.length + 2

def unary (input : List Token) : Parsed Expr input :=
  match input with
  | [] => fail .unexpected []
  | t :: rest =>
    if t.kind = .plus then do
      let ⟨e, r, _⟩ ← unary rest
      return ⟨e, r, by simp; omega⟩
    else if t.kind = .minus then
      if headKind rest = .integer then do
        let ⟨n, r, _⟩ ← expect .integer rest
        match integerValue? true n.text with
        | some value => return ⟨.int t.pos value, r, by simp; omega⟩
        | none => fail .integerRange rest
      else do
        let ⟨e, r, _⟩ ← unary rest
        return ⟨.neg t.pos e, r, by simp; omega⟩
    else primary (t :: rest)
termination_by 6 * input.length + 1

def primary (input : List Token) : Parsed Expr input :=
  match input with
  | [] => fail .unexpected []
  | t :: rest =>
    match t.kind with
    | .integer =>
      match integerValue? false t.text with
      | some value => .ok ⟨.int t.pos value, rest, by simp⟩
      | none => fail .integerRange (t :: rest)
    | .character =>
      match t.text.toList with
      | [c] => .ok ⟨.int t.pos (Int32.ofNat c.toNat), rest, by simp⟩
      | _ => fail .badCharacter (t :: rest)
    | .string => .ok ⟨.str t.pos t.text, rest, by simp⟩
    | .identifier =>
      match rest with
      | p :: a :: rest =>
        if p.kind = .leftParen then do
          let ⟨args, r, _⟩ ← arguments (a :: rest)
          return ⟨.call t.pos t.text a.pos args, r, by simp_all; omega⟩
        else .ok ⟨.name t.pos t.text, p :: a :: rest, by simp⟩
      | [p] =>
        if p.kind = .leftParen then fail .unexpected []
        else .ok ⟨.name t.pos t.text, [p], by simp⟩
      | [] => .ok ⟨.name t.pos t.text, [], by simp⟩
    | .leftParen => do
      let ⟨e, r, _⟩ ← assignment rest
      let ⟨_, r, _⟩ ← expect .rightParen r
      return ⟨e, r, by simp; omega⟩
    | _ => fail .unexpected (t :: rest)
termination_by 6 * input.length

/-- The arguments of a call and the closing parenthesis. A comma may stand after the last
argument. -/
def arguments (input : List Token) : Parsed (List Expr) input := do
  if headKind input = .rightParen then
    let ⟨_, r, _⟩ ← expect .rightParen input
    return ⟨[], r, by omega⟩
  else
    let ⟨e, r, _⟩ ← assignment input
    if headKind r = .comma then
      let ⟨_, r, _⟩ ← expect .comma r
      let ⟨es, r, _⟩ ← arguments r
      return ⟨e :: es, r, by omega⟩
    else
      let ⟨_, r, _⟩ ← expect .rightParen r
      return ⟨[e], r, by omega⟩
termination_by 6 * input.length + 5

end

/-- A condition between parentheses. -/
def condition (input : List Token) : Parsed Expr input := do
  let ⟨_, r, _⟩ ← expect .leftParen input
  let ⟨e, r, _⟩ ← assignment r
  let ⟨_, r, _⟩ ← expect .rightParen r
  return ⟨e, r, by omega⟩

/-! ## Variables -/

def initializer (input : List Token) : ParsedTail (Option Initializer) input :=
  match input with
  | [] => .ok ⟨none, [], by simp⟩
  | t :: rest =>
    if t.kind = .assign then do
      let ⟨value, r, _⟩ ← assignment rest
      return ⟨some ⟨t.pos, value⟩, r, by simp; omega⟩
    else .ok ⟨none, t :: rest, by simp⟩

/-- What follows a variable's declarator: its initializer, the other variables and the semicolon. -/
def variablesFrom (d : Declarator) (input : List Token) :
    Parsed (InitDeclarator × List InitDeclarator) input := do
  let ⟨init, r, _⟩ ← initializer input
  if headKind r = .comma then
    let ⟨_, r, _⟩ ← expect .comma r
    let ⟨next, r, _⟩ ← declarator r
    let ⟨(second, more), r, _⟩ ← variablesFrom next r
    return ⟨(⟨d, init⟩, second :: more), r, by omega⟩
  else
    let ⟨_, r, _⟩ ← expect .semicolon r
    return ⟨(⟨d, init⟩, []), r, by omega⟩
termination_by input.length

def varDecl (input : List Token) : Parsed VarDecl input := do
  let ⟨type, r, _⟩ ← typeSpec input
  let ⟨d, r, _⟩ ← declarator r
  let ⟨(first, more), r, _⟩ ← variablesFrom d r
  return ⟨⟨type.pos, type, first, more⟩, r, by omega⟩

/-! ## Statements -/

def returnValue (input : List Token) : Parsed (Option Expr) input := do
  if headKind input = .semicolon then
    let ⟨_, r, _⟩ ← expect .semicolon input
    return ⟨none, r, by omega⟩
  else
    let ⟨e, r, _⟩ ← assignment input
    let ⟨_, r, _⟩ ← expect .semicolon r
    return ⟨some e, r, by omega⟩

mutual

def statement (input : List Token) : Parsed Stmt input :=
  match input with
  | [] => fail .unexpected []
  | t :: rest =>
    match t.kind with
    | .kwReturn => do
      let ⟨value, r, _⟩ ← returnValue rest
      return ⟨.ret t.pos value, r, by simp; omega⟩
    | .kwIf => do
      let ⟨cond, r, _⟩ ← condition rest
      let ⟨thenBody, r, _⟩ ← statement r
      if headKind r = .kwElse then
        let ⟨_, r, _⟩ ← expect .kwElse r
        let ⟨elseBody, r, _⟩ ← statement r
        return ⟨.ifThenElse t.pos cond thenBody elseBody, r, by simp; omega⟩
      else return ⟨.ifThen t.pos cond thenBody, r, by simp; omega⟩
    | .kwWhile => do
      let ⟨cond, r, _⟩ ← condition rest
      let ⟨body, r, _⟩ ← statement r
      return ⟨.while t.pos cond body, r, by simp; omega⟩
    | .leftBrace => do
      let ⟨stmts, r, _⟩ ← statementsFrom rest
      return ⟨.block t.pos stmts, r, by simp; omega⟩
    | .semicolon => .ok ⟨.empty t.pos, rest, by simp⟩
    | kind => do
      if kind.startsType then
        let ⟨decl, r, _⟩ ← varDecl (t :: rest)
        return ⟨.vars decl, r, by omega⟩
      else
        let ⟨e, r, _⟩ ← assignment (t :: rest)
        let ⟨_, r, _⟩ ← expect .semicolon r
        return ⟨.expr t.pos e, r, by omega⟩
termination_by 2 * input.length

/-- The statements up to the closing brace. -/
def statementsFrom (input : List Token) : Parsed (List Stmt) input := do
  if headKind input = .rightBrace ∨ headKind input = .eof then
    let ⟨_, r, _⟩ ← expect .rightBrace input
    return ⟨[], r, by omega⟩
  else
    let ⟨stmt, r, _⟩ ← statement input
    let ⟨stmts, r, _⟩ ← statementsFrom r
    return ⟨stmt :: stmts, r, by omega⟩
termination_by 2 * input.length + 1

end

def block (input : List Token) : Parsed Block input := do
  let ⟨brace, r, _⟩ ← expect .leftBrace input
  let ⟨stmts, r, _⟩ ← statementsFrom r
  return ⟨⟨brace.pos, stmts⟩, r, by omega⟩

/-! ## External declarations -/

def param (input : List Token) : Parsed Param input := do
  let ⟨type, r, _⟩ ← typeSpec input
  let ⟨d, r, _⟩ ← declarator r
  return ⟨⟨type.pos, type, d⟩, r, by omega⟩

/-- One parameter or more. -/
def paramsFrom (input : List Token) : Parsed (List Param) input := do
  let ⟨p, r, _⟩ ← param input
  if headKind r = .comma then
    let ⟨_, r, _⟩ ← expect .comma r
    let ⟨ps, r, _⟩ ← paramsFrom r
    return ⟨p :: ps, r, by omega⟩
  else return ⟨[p], r, by omega⟩
termination_by input.length

/-- The parameters between the parentheses, and the closing one; `(void)` is an empty list. -/
def params (input : List Token) : Parsed (List Param) input :=
  match headKind input with
  | .rightParen => do
    let ⟨_, r, _⟩ ← expect .rightParen input
    return ⟨[], r, by omega⟩
  | .kwVoid => do
    let ⟨_, r, _⟩ ← expect .kwVoid input
    if headKind r = .rightParen then
      let ⟨_, r, _⟩ ← expect .rightParen r
      return ⟨[], r, by omega⟩
    else fail .voidNotAlone r
  | _ => do
    let ⟨ps, r, _⟩ ← paramsFrom input
    let ⟨_, r, _⟩ ← expect .rightParen r
    return ⟨ps, r, by omega⟩

/-- A function's parameters and what follows them, after the opening parenthesis. -/
def functionFrom (type : TypeSpec) (d : Declarator) (input : List Token) : Parsed External input :=
  match input with
  | [] => fail .expectedType []
  | start :: rest => do
    let ⟨ps, r, _⟩ ← params (start :: rest)
    let head : FunctionHead := ⟨type.pos, type, d, start.pos, ps⟩
    if headKind r = .semicolon then
      let ⟨_, r, _⟩ ← expect .semicolon r
      return ⟨.prototype head, r, by omega⟩
    else
      let ⟨body, r, _⟩ ← block r
      return ⟨.definition head body, r, by omega⟩

def external (input : List Token) : Parsed External input := do
  let ⟨type, r, _⟩ ← typeSpec input
  let ⟨d, r, _⟩ ← declarator r
  if headKind r = .leftParen then
    let ⟨_, r, _⟩ ← expect .leftParen r
    let ⟨e, r, _⟩ ← functionFrom type d r
    return ⟨e, r, by omega⟩
  else
    let ⟨(first, more), r, _⟩ ← variablesFrom d r
    return ⟨.vars ⟨type.pos, type, first, more⟩, r, by omega⟩

/-- All external declarations up to the end. -/
def externals (input : List Token) : Except Misfit (List External) := do
  if input.isEmpty then return []
  else
    let ⟨e, r, _⟩ ← external input
    return e :: (← externals r)
termination_by input.length

end Parser

/-- A text that is no program: why, and the token that does not fit. -/
structure ParseError where
  cause : Cause
  found : Token
  deriving DecidableEq, Repr

/-- The text of an error, with the position of the token. -/
def ParseError.message (e : ParseError) : String :=
  let what := match e.cause with
    | .expected wanted => s!"expected {wanted.text}, got {e.found.kind.text}"
    | .expectedType => s!"expected type, got {e.found.kind.text}"
    | .voidNotAlone => "void parameter must be alone"
    | .integerRange => s!"integer constant {e.found.text} out of range"
    | .badCharacter => s!"bad char constant {Text.Quoted.quote e.found.text}"
    | .unexpected => s!"unexpected token {e.found.kind.text}"
  s!"{what} at {e.found.pos.line}:{e.found.pos.col}"

/-- The program that a text spells. -/
def Program.ofText (text : List Char) : Except ParseError Program :=
  let stream := TokenStream.ofText text
  match Parser.externals stream.tokens with
  | .ok externals => .ok ⟨(stream.tokens.head?.map (·.pos)).getD stream.stop, externals⟩
  | .error f => .error ⟨f.cause, f.rest.head?.getD stream.endToken⟩

end CSubset.Surface
