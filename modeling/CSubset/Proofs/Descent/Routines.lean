import CSubset.Proofs.Descent.Levels
import CSubset.Proofs.Descent.Plans

/-!
# The routines of the parser

The parser as routines that call each other, and nothing else: each one looks at the token in hand
and does not know how many tokens are left. A loop is a routine that calls itself for its next pass.
Operators are read level by level.

What they have to answer is what the functions of the parser give (`Routine.answer`).
-/

namespace CSubset.Descent

open Surface
open Surface.Parser (headKind integerValue?)

inductive Routine where
  /-- The loop over the external declarations. -/
  | program
  | external
  | type
  /-- The loop over the stars of a declarator, and the name. -/
  | declarator (start : Option Pos) (stars : Nat)
  | initializer
  /-- The loop over the variables of a declaration, from behind a declarator on. -/
  | vars (d : Declarator)
  | varDecl
  /-- A function, from behind the opening parenthesis on. -/
  | function (result : TypeSpec) (d : Declarator)
  | params
  | param
  /-- The loop over the parameters. -/
  | paramList
  | block
  /-- The loop over the statements of a block. -/
  | statements
  | statement
  | returnValue
  | condition
  | assignment
  | binary (level : Fin 11)
  /-- The loop over the operators of a level. -/
  | operands (level : Fin 10)
  | unary
  | primary
  /-- The loop over the arguments of a call. -/
  | arguments

namespace Routine

/-- What a routine returns. -/
abbrev Value : Routine → Type
  | program => List External
  | external | function _ _ => External
  | type => TypeSpec
  | declarator _ _ => Declarator
  | initializer => Option Initializer
  | vars _ => InitDeclarator × List InitDeclarator
  | varDecl => VarDecl
  | params | paramList => List Param
  | param => Param
  | block => Block
  | statements => List Stmt
  | statement => Stmt
  | returnValue => Option Expr
  | condition | assignment | unary | primary => Expr
  | binary _ => Expr × List Link
  | operands _ => List Link
  | arguments => List Expr

open Plan

/-- What a routine does. -/
def plan : (r : Routine) → Plan Value r.Value
  | program => .look fun
    | none => return []
    | some _ => do
      let e ← ask external
      return e :: (← ask program)
  | external => do
    let type ← ask type
    let d ← ask (declarator none 0)
    if (← kind) = .leftParen then
      let _ ← expect .leftParen
      return ← ask (function type d)
    else
      let (first, more) ← ask (vars d)
      return .vars ⟨type.pos, type, first, more⟩
  | type => do
    let start ← token
    let leading ← accept .kwConst
    match (← kind).typeTag? with
    | none => stop .expectedType
    | some tag =>
      skip
      let trailing ← accept .kwConst
      return ⟨start.pos, tag, leading || trailing⟩
  | declarator start stars => do
    let t ← token
    if t.kind = .star then
      skip
      return ← ask (declarator (start.getD t.pos) (stars + 1))
    else
      let name ← expect .identifier
      return ⟨start.getD name.pos, stars, name.pos, name.text⟩
  | initializer => do
    let eq ← token
    if eq.kind = .assign then
      skip
      return some ⟨eq.pos, ← ask assignment⟩
    else return none
  | vars d => do
    let init ← ask initializer
    if (← kind) = .comma then
      let _ ← expect .comma
      let next ← ask (declarator none 0)
      let (second, more) ← ask (vars next)
      return (⟨d, init⟩, second :: more)
    else
      let _ ← expect .semicolon
      return (⟨d, init⟩, [])
  | varDecl => do
    let type ← ask type
    let d ← ask (declarator none 0)
    let (first, more) ← ask (vars d)
    return ⟨type.pos, type, first, more⟩
  | function result d => do
    let start ← token
    let ps ← ask params
    let head : FunctionHead := ⟨result.pos, result, d, start.pos, ps⟩
    if (← kind) = .semicolon then
      let _ ← expect .semicolon
      return .prototype head
    else return .definition head (← ask block)
  | params => do
    match ← kind with
    | .rightParen =>
      let _ ← expect .rightParen
      return []
    | .kwVoid =>
      let _ ← expect .kwVoid
      if (← kind) = .rightParen then
        let _ ← expect .rightParen
        return []
      else stop .voidNotAlone
    | _ =>
      let ps ← ask paramList
      let _ ← expect .rightParen
      return ps
  | param => do
    let type ← ask type
    return ⟨type.pos, type, ← ask (declarator none 0)⟩
  | paramList => do
    let p ← ask param
    if (← kind) = .comma then
      let _ ← expect .comma
      return p :: (← ask paramList)
    else return [p]
  | block => do
    let brace ← expect .leftBrace
    return ⟨brace.pos, ← ask statements⟩
  | statements => do
    let k ← kind
    if k = .rightBrace ∨ k = .eof then
      let _ ← expect .rightBrace
      return []
    else
      let stmt ← ask statement
      return stmt :: (← ask statements)
  | statement => do
    let t ← token
    match t.kind with
    | .kwReturn =>
      skip
      return .ret t.pos (← ask returnValue)
    | .kwIf =>
      skip
      let cond ← ask condition
      let thenBody ← ask statement
      if (← kind) = .kwElse then
        let _ ← expect .kwElse
        return .ifThenElse t.pos cond thenBody (← ask statement)
      else return .ifThen t.pos cond thenBody
    | .kwWhile =>
      skip
      let cond ← ask condition
      return .while t.pos cond (← ask statement)
    | .leftBrace =>
      skip
      return .block t.pos (← ask statements)
    | .semicolon =>
      skip
      return .empty t.pos
    | kind =>
      if kind.startsType then return .vars (← ask varDecl)
      else
        let e ← ask assignment
        let _ ← expect .semicolon
        return .expr t.pos e
  | returnValue => do
    if (← kind) = .semicolon then
      let _ ← expect .semicolon
      return none
    else
      let e ← ask assignment
      let _ ← expect .semicolon
      return some e
  | condition => do
    let _ ← expect .leftParen
    let e ← ask assignment
    let _ ← expect .rightParen
    return e
  | assignment => do
    let (first, links) ← ask (binary 0)
    let target := Link.group Operator.levels first links
    if (← kind) = .assign then
      let eq ← expect .assign
      return .assign eq.pos target (← ask assignment)
    else return target
  | binary level => do
    if h : level.val < 10 then
      let (first, run) ← ask (binary (Fin.succ ⟨level, h⟩))
      let more ← ask (operands ⟨level, h⟩)
      return (first, run ++ more)
    else return (← ask unary, [])
  | operands level => do
    let t ← token
    match t.kind.operator? with
    | none => return []
    | some op =>
      if op.level = level then
        skip
        let (operand, run) ← ask (binary level.succ)
        let more ← ask (operands level)
        return ⟨t.pos, op, operand⟩ :: (run ++ more)
      else return []
  | unary => do
    let t ← token
    if t.kind = .plus then
      skip
      return ← ask unary
    else if t.kind = .minus then
      skip
      if (← kind) = .integer then
        match integerValue? true (← token).text with
        | some value =>
          skip
          return .int t.pos value
        | none => stop .integerRange
      else return .neg t.pos (← ask unary)
    else return ← ask primary
  | primary => do
    let t ← token
    match t.kind with
    | .integer =>
      match integerValue? false t.text with
      | some value =>
        skip
        return .int t.pos value
      | none => stop .integerRange
    | .character =>
      match t.text.toList with
      | [c] =>
        skip
        return .int t.pos (Int32.ofNat c.toNat)
      | _ => stop .badCharacter
    | .string =>
      skip
      return .str t.pos t.text
    | .identifier =>
      skip
      if (← token).kind = .leftParen then
        skip
        let start ← token
        return .call t.pos t.text start.pos (← ask arguments)
      else return .name t.pos t.text
    | .leftParen =>
      skip
      let e ← ask assignment
      let _ ← expect .rightParen
      return e
    | _ => stop .unexpected
  | arguments => do
    if (← kind) = .rightParen then
      let _ ← expect .rightParen
      return []
    else
      let e ← ask assignment
      if (← kind) = .comma then
        let _ ← expect .comma
        return e :: (← ask arguments)
      else
        let _ ← expect .rightParen
        return [e]

/-- What the parser's functions answer. -/
@[simp]
def answer : (r : Routine) → List Token → Except Misfit (r.Value × List Token)
  | program, ts => (·, []) <$> Parser.externals ts
  | external, ts => ofStep <$> Parser.external ts
  | type, ts => ofStep <$> Parser.typeSpec ts
  | declarator start stars, ts => ofStep <$> Parser.declaratorFrom start stars ts
  | initializer, ts => ofTail <$> Parser.initializer ts
  | vars d, ts => ofStep <$> Parser.variablesFrom d ts
  | varDecl, ts => ofStep <$> Parser.varDecl ts
  | function result d, ts => ofStep <$> Parser.functionFrom result d ts
  | params, ts => ofStep <$> Parser.params ts
  | param, ts => ofStep <$> Parser.param ts
  | paramList, ts => ofStep <$> Parser.paramsFrom ts
  | block, ts => ofStep <$> Parser.block ts
  | statements, ts => ofStep <$> Parser.statementsFrom ts
  | statement, ts => ofStep <$> Parser.statement ts
  | returnValue, ts => ofStep <$> Parser.returnValue ts
  | condition, ts => ofStep <$> Parser.condition ts
  | assignment, ts => ofStep <$> Parser.assignment ts
  | binary level, ts => ofStep <$> Parser.chainOver level ts
  | operands level, ts => ofTail <$> Parser.linksAt level ts
  | unary, ts => ofStep <$> Parser.unary ts
  | primary, ts => ofStep <$> Parser.primary ts
  | arguments, ts => ofStep <$> Parser.arguments ts

/-- Where nothing is read between them, a routine only calls routines of smaller rank. -/
@[simp]
def rank : Routine → Nat
  | type | declarator _ _ | initializer | block | condition | operands _ => 0
  | vars _ | varDecl | param | external | primary => 1
  | paramList | program | unary => 2
  | params => 3
  | function _ _ => 4
  | binary level => 13 - level
  | assignment => 14
  | arguments | returnValue | statement => 15
  | statements => 16

/-- How many tokens are read at least. -/
@[simp]
def least : Routine → Nat
  | program | initializer | operands _ => 0
  | _ => 1

end Routine

@[simp]
def contract : Contract Routine.Value where
  answer := Routine.answer
  rank := Routine.rank
  least := Routine.least
  perToken := 192
  perRank := 10
  fee := 6

end CSubset.Descent
