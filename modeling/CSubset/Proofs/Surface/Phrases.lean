import CSubset.Surface.Parser

/-!
# Phrases

A phrase is a list of tokens together with the piece of syntax that it spells. There is one relation
for each kind of phrase, and its cases are the ways in which such a phrase is put together from
shorter ones. The positions in the syntax are those of tokens of the phrase.

Two phrases that belong together in one way only are put together in that way: an `else` belongs to
the nearest `if` that has none (`Stmt.endsOpen`), and a minus sign in front of an integer belongs to
the literal.

The lists of arguments, of parameters and of statements are taken with the token that closes them,
and the variables of a declaration with the semicolon.
-/

namespace CSubset.Surface

/-- Whether the statement ends in an `if` without an `else`, so that an `else` behind it belongs to
it. -/
def Stmt.endsOpen : Stmt → Bool
  | .ifThen _ _ _ => true
  | .ifThenElse _ _ _ elseBody => elseBody.endsOpen
  | .while _ _ body => body.endsOpen
  | _ => false

namespace Phrase

open CSubset.Surface.Parser (headKind integerValue?)

variable {ts : List Token} {e : Expr} {d : Declarator}

/-- A `const`, or nothing. -/
inductive Qualifier : List Token → Bool → Prop where
  | absent : Qualifier [] false
  | const {t : Token} (ht : t.kind = .kwConst) : Qualifier [t] true

inductive TypeName : List Token → TypeSpec → Prop where
  | mk {before after : List Token} {leading trailing : Bool} {t : Token} {tag : TypeTag}
    (hbefore : Qualifier before leading) (ht : t.kind.typeTag? = some tag)
      (hafter : Qualifier after trailing) :
    TypeName (before ++ t :: after) ⟨(before.head?.getD t).pos, tag, leading || trailing⟩

inductive Declared : List Token → Declarator → Prop where
  | mk {stars : List Token} {t : Token} (hstars : ∀ s ∈ stars, s.kind = .star)
    (ht : t.kind = .identifier) :
    Declared (stars ++ [t]) ⟨(stars.head?.getD t).pos, stars.length, t.pos, t.text⟩

/-! ## Expressions

A chain of operands and operators is grouped by precedence at the end. -/

mutual

inductive Assignment : List Token → Expr → Prop where
  | value {ts : List Token} {e : Expr} (h : Chain ts e) : Assignment ts e
  | assign {ts ts' : List Token} {t : Token} {target value : Expr} (htarget : Chain ts target)
    (ht : t.kind = .assign)
    (hvalue : Assignment ts' value) : Assignment (ts ++ t :: ts') (.assign t.pos target value)

inductive Chain : List Token → Expr → Prop where
  | mk {ts ts' : List Token} {first : Expr} {links : List Link} (hfirst : Unary ts first)
    (hlinks : Links ts' links) :
    Chain (ts ++ ts') (Link.group Operator.levels first links)

inductive Links : List Token → List Link → Prop where
  | nil : Links [] []
  | cons {t : Token} {op : Operator} {ts ts' : List Token} {operand : Expr} {links : List Link}
    (ht : t.kind.operator? = some op) (hoperand : Unary ts operand) (hlinks : Links ts' links) :
    Links (t :: (ts ++ ts')) (⟨t.pos, op, operand⟩ :: links)

inductive Unary : List Token → Expr → Prop where
  | plus {t : Token} {ts : List Token} {e : Expr} (ht : t.kind = .plus) (h : Unary ts e) :
    Unary (t :: ts) e
  | negative {t n : Token} {value : Int32} (ht : t.kind = .minus) (hn : n.kind = .integer)
    (hvalue : integerValue? true n.text = some value) : Unary [t, n] (.int t.pos value)
  | minus {t : Token} {ts : List Token} {e : Expr} (ht : t.kind = .minus)
    (hts : headKind ts ≠ .integer)
    (h : Unary ts e) : Unary (t :: ts) (.neg t.pos e)
  | primary {ts : List Token} {e : Expr} (h : Primary ts e) : Unary ts e

inductive Primary : List Token → Expr → Prop where
  | integer {t : Token} {value : Int32} (ht : t.kind = .integer)
    (hvalue : integerValue? false t.text = some value) :
    Primary [t] (.int t.pos value)
  | character {t : Token} {c : Char} (ht : t.kind = .character) (hc : t.text.toList = [c]) :
    Primary [t] (.int t.pos (Int32.ofNat c.toNat))
  | string {t : Token} (ht : t.kind = .string) : Primary [t] (.str t.pos t.text)
  | name {t : Token} (ht : t.kind = .identifier) : Primary [t] (.name t.pos t.text)
  | call {t p a : Token} {ts : List Token} {args : List Expr} (ht : t.kind = .identifier)
    (hp : p.kind = .leftParen)
    (hargs : Arguments (a :: ts) args) : Primary (t :: p :: a :: ts) (.call t.pos t.text a.pos args)
  | paren {p q : Token} {ts : List Token} {e : Expr} (hp : p.kind = .leftParen)
    (h : Assignment ts e)
    (hq : q.kind = .rightParen) : Primary (p :: (ts ++ [q])) e

inductive Arguments : List Token → List Expr → Prop where
  /-- Also behind a comma: the last argument may be followed by one. -/
  | none {q : Token} (hq : q.kind = .rightParen) : Arguments [q] []
  | last {q : Token} {ts : List Token} {e : Expr} (h : Assignment ts e)
    (hq : q.kind = .rightParen) :
    Arguments (ts ++ [q]) [e]
  | more {c : Token} {ts ts' : List Token} {e : Expr} {es : List Expr} (h : Assignment ts e)
    (hc : c.kind = .comma)
    (hmore : Arguments ts' es) : Arguments (ts ++ c :: ts') (e :: es)

end

inductive Initialized : List Token → Option Initializer → Prop where
  | absent : Initialized [] none
  | value {t : Token} {ts : List Token} {e : Expr} (ht : t.kind = .assign) (h : Assignment ts e) :
    Initialized (t :: ts) (some ⟨t.pos, e⟩)

/-- What follows the declarator of the first variable. -/
inductive Variables : Declarator → List Token → InitDeclarator × List InitDeclarator → Prop where
  | last {d : Declarator} {ts : List Token} {init : Option Initializer} {s : Token}
    (hinit : Initialized ts init)
    (hs : s.kind = .semicolon) : Variables d (ts ++ [s]) (⟨d, init⟩, [])
  | more {d next : Declarator} {ts ns ts' : List Token} {init : Option Initializer} {c : Token}
    {second : InitDeclarator} {others : List InitDeclarator} (hinit : Initialized ts init)
      (hc : c.kind = .comma)
    (hnext : Declared ns next) (hmore : Variables next ts' (second, others)) :
    Variables d (ts ++ c :: (ns ++ ts')) (⟨d, init⟩, second :: others)

inductive Declaration : List Token → VarDecl → Prop where
  | mk {ts ns vs : List Token} {type : TypeSpec} {d : Declarator} {first : InitDeclarator}
    {more : List InitDeclarator}
    (htype : TypeName ts type) (hname : Declared ns d) (hvars : Variables d vs (first, more)) :
    Declaration (ts ++ (ns ++ vs)) ⟨type.pos, type, first, more⟩

/-! ## Statements -/

/-- A condition between parentheses. -/
inductive Condition : List Token → Expr → Prop where
  | mk {p q : Token} {ts : List Token} {e : Expr} (hp : p.kind = .leftParen) (h : Assignment ts e)
    (hq : q.kind = .rightParen) : Condition (p :: (ts ++ [q])) e

/-- What follows a `return`. -/
inductive Returned : List Token → Option Expr → Prop where
  | nothing {s : Token} (hs : s.kind = .semicolon) : Returned [s] none
  | value {ts : List Token} {e : Expr} {s : Token} (h : Assignment ts e)
    (hs : s.kind = .semicolon) :
    Returned (ts ++ [s]) (some e)

mutual

inductive Statement : List Token → Stmt → Prop where
  | ret {t : Token} {ts : List Token} {value : Option Expr} (ht : t.kind = .kwReturn)
    (h : Returned ts value) :
    Statement (t :: ts) (.ret t.pos value)
  | ifThen {t : Token} {cs bs : List Token} {cond : Expr} {body : Stmt} (ht : t.kind = .kwIf)
    (hcond : Condition cs cond) (hbody : Statement bs body) : Statement (t :: (cs ++ bs))
      (.ifThen t.pos cond body)
  | ifThenElse {t l : Token} {cs bs bs' : List Token} {cond : Expr} {thenBody elseBody : Stmt}
    (ht : t.kind = .kwIf)
    (hcond : Condition cs cond) (hthen : Statement bs thenBody)
      (hclosed : thenBody.endsOpen = false)
    (hl : l.kind = .kwElse) (helse : Statement bs' elseBody) :
    Statement (t :: (cs ++ (bs ++ l :: bs'))) (.ifThenElse t.pos cond thenBody elseBody)
  | while {t : Token} {cs bs : List Token} {cond : Expr} {body : Stmt} (ht : t.kind = .kwWhile)
    (hcond : Condition cs cond) (hbody : Statement bs body) : Statement (t :: (cs ++ bs))
      (.while t.pos cond body)
  | block {t : Token} {ts : List Token} {stmts : List Stmt} (ht : t.kind = .leftBrace)
    (h : Statements ts stmts) :
    Statement (t :: ts) (.block t.pos stmts)
  | empty {t : Token} (ht : t.kind = .semicolon) : Statement [t] (.empty t.pos)
  | vars {ts : List Token} {decl : VarDecl} (h : Declaration ts decl) : Statement ts (.vars decl)
  | expr {t s : Token} {ts : List Token} {e : Expr} (h : Assignment (t :: ts) e)
    (hs : s.kind = .semicolon) :
    Statement (t :: (ts ++ [s])) (.expr t.pos e)

inductive Statements : List Token → List Stmt → Prop where
  | nil {q : Token} (hq : q.kind = .rightBrace) : Statements [q] []
  | cons {ts ts' : List Token} {stmt : Stmt} {stmts : List Stmt} (h : Statement ts stmt)
    (hmore : Statements ts' stmts) :
    Statements (ts ++ ts') (stmt :: stmts)

end

/-! ## External declarations -/

inductive Parameter : List Token → Param → Prop where
  | mk {ts ns : List Token} {type : TypeSpec} {d : Declarator} (htype : TypeName ts type)
    (hname : Declared ns d) :
    Parameter (ts ++ ns) ⟨type.pos, type, d⟩

/-- One parameter or more. -/
inductive ParameterList : List Token → List Param → Prop where
  | last {ts : List Token} {p : Param} (h : Parameter ts p) : ParameterList ts [p]
  | more {ts ts' : List Token} {p : Param} {ps : List Param} {c : Token} (h : Parameter ts p)
    (hc : c.kind = .comma)
    (hmore : ParameterList ts' ps) : ParameterList (ts ++ c :: ts') (p :: ps)

inductive Parameters : List Token → List Param → Prop where
  | none {q : Token} (hq : q.kind = .rightParen) : Parameters [q] []
  | void {v q : Token} (hv : v.kind = .kwVoid) (hq : q.kind = .rightParen) : Parameters [v, q] []
  | some {ts : List Token} {ps : List Param} {q : Token} (h : ParameterList ts ps)
    (hts : headKind ts ≠ .kwVoid)
    (hq : q.kind = .rightParen) : Parameters (ts ++ [q]) ps

inductive Member : List Token → External → Prop where
  | prototype {ts ns ps : List Token} {p a s : Token} {type : TypeSpec} {d : Declarator}
    {params : List Param}
    (htype : TypeName ts type) (hname : Declared ns d) (hp : p.kind = .leftParen)
    (hparams : Parameters (a :: ps) params) (hs : s.kind = .semicolon) :
    Member (ts ++ (ns ++ p :: a :: (ps ++ [s]))) (.prototype ⟨type.pos, type, d, a.pos, params⟩)
  | definition {ts ns ps bs : List Token} {p a b : Token} {type : TypeSpec} {d : Declarator}
    {params : List Param}
    {stmts : List Stmt} (htype : TypeName ts type) (hname : Declared ns d)
      (hp : p.kind = .leftParen)
    (hparams : Parameters (a :: ps) params) (hb : b.kind = .leftBrace)
      (hbody : Statements bs stmts) :
    Member (ts ++ (ns ++ p :: a :: (ps ++ b :: bs)))
      (.definition ⟨type.pos, type, d, a.pos, params⟩ ⟨b.pos, stmts⟩)
  | vars {ts : List Token} {decl : VarDecl} (h : Declaration ts decl) : Member ts (.vars decl)

inductive Members : List Token → List External → Prop where
  | nil : Members [] []
  | cons {ts ts' : List Token} {e : External} {es : List External} (h : Member ts e)
    (hmore : Members ts' es) :
    Members (ts ++ ts') (e :: es)

/-! ## First tokens

The first token of a phrase, whatever stands behind the phrase. -/

/-- The kinds of token that an expression can begin with. -/
def startsExpr : TokenKind → Bool
  | .identifier | .integer | .character | .string | .leftParen | .plus | .minus => true
  | _ => false

theorem Primary.starts (h : Primary ts e) (rest : List Token) :
    startsExpr (headKind (ts ++ rest)) = true := by
  cases h with
  | integer ht _ | character ht _ | string ht | name ht | call ht _ _ | paren ht _ _ =>
    simp [headKind, startsExpr, ht]

theorem Primary.head (h : Primary ts e) :
    ∃ t tail, ts = t :: tail ∧ t.kind ≠ .plus ∧ t.kind ≠ .minus := by
  cases h with
  | integer ht _ | character ht _ | string ht | name ht | call ht _ _ | paren ht _ _ =>
    exact ⟨_, _, rfl, by rw [ht]; nofun, by rw [ht]; nofun⟩

theorem Unary.starts (h : Unary ts e) (rest : List Token) :
    startsExpr (headKind (ts ++ rest)) = true := by
  cases h with
  | plus ht _ | negative ht _ _ | minus ht _ _ => simp [headKind, startsExpr, ht]
  | primary h => exact h.starts rest

theorem Chain.starts (h : Chain ts e) (rest : List Token) :
    startsExpr (headKind (ts ++ rest)) = true := by
  cases h with
  | mk hfirst _ =>
    rw [List.append_assoc]
    exact hfirst.starts _

theorem Assignment.starts (h : Assignment ts e) (rest : List Token) :
    startsExpr (headKind (ts ++ rest)) = true := by
  cases h with
  | value h => exact h.starts rest
  | assign h _ _ =>
    rw [List.append_assoc]
    exact h.starts _

/-- Behind an operand stands an operator or what is behind the chain, but no parenthesis. -/
theorem Links.head_ne {links : List Link} (h : Links ts links) {rest : List Token}
    (hrest : headKind rest ≠ .leftParen) : headKind (ts ++ rest) ≠ .leftParen := by
  cases h with
  | nil => exact hrest
  | @cons t _ _ _ _ _ ht _ _ =>
    intro h
    rw [show t.kind = .leftParen from h] at ht
    cases ht

theorem Assignment.ne_nil (h : Assignment ts e) : ts ≠ [] := by
  rintro rfl
  cases h.starts []

theorem Arguments.ne_nil {args : List Expr} (h : Arguments ts args) : ts ≠ [] := by
  cases h <;> simp

theorem Parameters.ne_nil {params : List Param} (h : Parameters ts params) : ts ≠ [] := by
  cases h <;> simp

theorem TypeName.starts {type : TypeSpec} (h : TypeName ts type) (rest : List Token) :
    (headKind (ts ++ rest)).startsType = true := by
  cases h with
  | mk hbefore ht _ =>
    cases hbefore with
    | absent => simp [headKind, TokenKind.startsType, ht]
    | const hconst => simp [headKind, TokenKind.startsType, hconst]

/-- A declarator begins with a star or a name, so no type goes on there. -/
theorem Declared.head_ne {ns : List Token} (h : Declared ns d) (rest : List Token) :
    headKind (ns ++ rest) ≠ .kwConst := by
  cases h with
  | @mk stars t hstars ht =>
    cases stars with
    | nil => simp [headKind, ht]
    | cons s stars => simp [headKind, hstars s List.mem_cons_self]

theorem ParameterList.starts {ps : List Param} (h : ParameterList ts ps) (rest : List Token) :
    (headKind (ts ++ rest)).startsType = true := by
  cases h with
  | last h | more h _ _ =>
    cases h with
    | mk htype _ =>
      simp only [List.append_assoc]
      exact htype.starts _

theorem Declaration.starts {decl : VarDecl} (h : Declaration ts decl) (rest : List Token) :
    (headKind (ts ++ rest)).startsType = true := by
  cases h with
  | mk htype _ _ =>
    rw [List.append_assoc]
    exact htype.starts _

/-- Variables are told from a function by what stands behind the first name. -/
theorem Variables.head_ne {vars : InitDeclarator × List InitDeclarator}
    (h : Variables d ts vars) (rest : List Token) : headKind (ts ++ rest) ≠ .leftParen := by
  cases h with
  | last hinit hend | more hinit hend _ _ =>
    cases hinit with
    | absent => simp [headKind, hend]
    | value ht _ => simp [headKind, ht]

/-- The kinds of token that a statement can begin with. -/
def startsStatement (kind : TokenKind) : Bool :=
  startsExpr kind || kind.startsType ||
    [.kwReturn, .kwIf, .kwWhile, .leftBrace, .semicolon].contains kind

theorem Statement.starts {stmt : Stmt} (h : Statement ts stmt) (rest : List Token) :
    startsStatement (headKind (ts ++ rest)) = true := by
  cases h with
  | ret ht _ | ifThen ht _ _ | ifThenElse ht _ _ _ _ _ | «while» ht _ _ | block ht _ | empty ht =>
    simp [headKind, startsStatement, ht]
  | vars h => simp [startsStatement, h.starts rest]
  | expr h _ =>
    have hstart := h.starts []
    simp only [headKind, List.cons_append] at hstart
    simp [headKind, startsStatement, hstart]

/-- In a block there is no `else` behind a statement. -/
theorem Statements.head_ne {stmts : List Stmt} (h : Statements ts stmts) (rest : List Token) :
    headKind (ts ++ rest) ≠ .kwElse := by
  cases h with
  | nil hq => simp [headKind, hq]
  | @cons _ ts' _ _ h _ =>
    intro helse
    have hstart := h.starts (ts' ++ rest)
    rw [← List.append_assoc, helse] at hstart
    cases hstart

end Phrase

end CSubset.Surface
