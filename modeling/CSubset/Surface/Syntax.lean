import CSubset.Operator
import CSubset.Position

/-!
# Surface syntax

A program as it is written: expressions, statements and external declarations, with the positions of
the tokens that later become the positions of tree nodes. Parentheses and unary plus leave no trace;
a negative literal is a literal.
-/

namespace CSubset.Surface

inductive Expr where
  | int (pos : Pos) (value : Int32)
  | str (pos : Pos) (contents : String)
  | name (pos : Pos) (name : String)
  /-- The position of the argument list is that of the token after the opening parenthesis. -/
  | call (pos : Pos) (callee : String) (argsPos : Pos) (args : List Expr)
  | neg (pos : Pos) (operand : Expr)
  | binary (pos : Pos) (op : Operator) (left right : Expr)
  | assign (pos : Pos) (target value : Expr)
  deriving Repr

/-- A basic type, with or without `const`. -/
structure TypeSpec where
  pos : Pos
  tag : TypeTag
  isConst : Bool
  deriving DecidableEq, Repr

/-- A name with the stars in front of it. -/
structure Declarator where
  /-- The position of the first star, or of the name if there is none. -/
  pos : Pos
  stars : Nat
  namePos : Pos
  name : String
  deriving DecidableEq, Repr

/-- A value given to a variable where it is declared, with the position of the equals sign. -/
structure Initializer where
  pos : Pos
  value : Expr
  deriving Repr

structure InitDeclarator where
  declarator : Declarator
  init : Option Initializer
  deriving Repr

/-- One or more variables of one type. -/
structure VarDecl where
  pos : Pos
  type : TypeSpec
  first : InitDeclarator
  more : List InitDeclarator
  deriving Repr

inductive Stmt where
  | ret (pos : Pos) (value : Option Expr)
  | ifThen (pos : Pos) (cond : Expr) (body : Stmt)
  | ifThenElse (pos : Pos) (cond : Expr) (thenBody elseBody : Stmt)
  | while (pos : Pos) (cond : Expr) (body : Stmt)
  | block (pos : Pos) (stmts : List Stmt)
  | empty (pos : Pos)
  | vars (decl : VarDecl)
  | expr (pos : Pos) (value : Expr)
  deriving Repr

/-- The position of a statement's first token. -/
def Stmt.pos : Stmt → Pos
  | .ret pos _ => pos
  | .ifThen pos _ _ => pos
  | .ifThenElse pos _ _ _ => pos
  | .while pos _ _ => pos
  | .block pos _ => pos
  | .empty pos => pos
  | .vars decl => decl.pos
  | .expr pos _ => pos

structure Param where
  pos : Pos
  type : TypeSpec
  declarator : Declarator
  deriving DecidableEq, Repr

structure Block where
  pos : Pos
  stmts : List Stmt
  deriving Repr

/-- What a function's declaration and its definition begin with. -/
structure FunctionHead where
  pos : Pos
  type : TypeSpec
  declarator : Declarator
  /-- The position of the token after the opening parenthesis. -/
  paramsPos : Pos
  params : List Param
  deriving DecidableEq, Repr

inductive External where
  | prototype (head : FunctionHead)
  | definition (head : FunctionHead) (body : Block)
  | vars (decl : VarDecl)
  deriving Repr

/-- A whole program. Its position is that of its first token, or of the end if there is none. -/
structure Program where
  pos : Pos
  externals : List External
  deriving Repr

end CSubset.Surface
