import CSubset.Surface.Syntax
import CSubset.Text.Utf8
import CSubset.Tree.Sketch

/-!
# From surface syntax to trees

Declarations are split: each variable has a node of its own, with its own copy of the type, and an
initializer becomes an assignment after it. A negation is a subtraction from zero, and a single
statement under a condition becomes a block.

Lists are allocated before their members, all other nodes after their children. A function's
declarator leaves a name node that nothing refers to.
-/

namespace CSubset.Surface

open Arena (allocAt)

/-- Allocate a list node first and its members after it. -/
def withItems (pos : Pos) (form : SeqForm) (items : Alloc (List Node)) : Alloc Node := do
  let place := (← get).size
  let opened ← allocAt pos (.seq · form [])
  let closed := Tree.seq opened.label form ((← items).map some)
  Arena.update place closed
  return closed

def binaryForm : Operator → BinaryForm
  | .arith op => .arithmetic (.known op)
  | .bit op => .bitwise (.known op)
  | .cmp op => .comparison (.known op)
  | .bool op => .boolean (.known op)

mutual

def Expr.build : Expr → Alloc Node
  | .int pos value => allocAt pos (.leaf · (.intConst value))
  | .str pos contents => allocAt pos (.leaf · (.strConst (Text.Utf8.encode contents)))
  | .name pos ident => allocAt pos (.leaf · (.names [ident] 0))
  | .call pos callee argsPos args => do
    let args ← withItems argsPos .parameters (Expr.buildAll args)
    allocAt pos (.unary · (.call callee) (some args))
  | .neg pos operand => do
    let operand ← operand.build
    let zero ← allocAt pos (.leaf · (.intConst 0))
    allocAt pos (.binary · (.arithmetic (.known .sub)) (some zero) (some operand))
  | .binary pos op left right => do
    let left ← left.build
    let right ← right.build
    allocAt pos (.binary · (binaryForm op) (some left) (some right))
  | .assign pos target value => do
    let target ← target.build
    let value ← value.build
    allocAt pos (.binary · .assign (some target) (some value))

def Expr.buildAll : List Expr → Alloc (List Node)
  | [] => return []
  | e :: es => do
    let n ← e.build
    let ns ← Expr.buildAll es
    return n :: ns

end

def TypeSpec.build (t : TypeSpec) : Alloc Node :=
  allocAt t.pos (.leaf · (.type (.known t.tag) t.isConst))

def Declarator.build (d : Declarator) : Alloc Node :=
  allocAt d.pos (.leaf · (.names [d.name] d.stars))

/-- The node of a variable at `pos`, and the assignment of its first value. -/
def InitDeclarator.build (pos : Pos) (type name : Node) (init : Option Initializer) :
    Alloc (List Node) := do
  let decl ← allocAt pos (.binary · .forward (some type) (some name))
  match init with
  | none => return [decl]
  | some init =>
    let value ← init.value.build
    let target ← name.copy
    let assign ← allocAt init.pos (.binary · .assign (some target) (some value))
    return [decl, assign]

/-- The variables after the first, each with a copy of the type. -/
def InitDeclarator.buildMore (pos : Pos) (type : Node) : List InitDeclarator → Alloc (List Node)
  | [] => return []
  | d :: ds => do
    let name ← d.declarator.build
    let type' ← type.copy
    let ns ← InitDeclarator.build pos type' name d.init
    let more ← InitDeclarator.buildMore pos type ds
    return ns ++ more

def VarDecl.build (d : VarDecl) : Alloc (List Node) := do
  let type ← d.type.build
  let name ← d.first.declarator.build
  let ns ← InitDeclarator.build d.pos type name d.first.init
  let more ← InitDeclarator.buildMore d.pos type d.more
  return ns ++ more

/-- The block under a condition, from the nodes of the statement there. -/
def Stmt.asBody (s : Stmt) (nodes : List Node) : Alloc Node :=
  match s, nodes with
  | .block _ _, [n] => return n
  | s, nodes => allocAt s.pos (.seq · .block (nodes.map some))

mutual

/-- The nodes of a statement: none for an empty one, several for variables. -/
def Stmt.build : Stmt → Alloc (List Node)
  | .ret pos value => do
    let value ← value.mapM Expr.build
    return [← allocAt pos (.unary · .ret value)]
  | .ifThen pos cond body => do
    let cond ← cond.build
    let body ← body.asBody (← body.build)
    return [← allocAt pos (.binary · .ifThen (some cond) (some body))]
  | .ifThenElse pos cond thenBody elseBody => do
    let cond ← cond.build
    let thenBody ← thenBody.asBody (← thenBody.build)
    let elseBody ← elseBody.asBody (← elseBody.build)
    return [← allocAt pos (.ternary · .ifThenElse (some cond) (some thenBody) (some elseBody))]
  | .while pos cond body => do
    let cond ← cond.build
    let body ← body.asBody (← body.build)
    return [← allocAt pos (.binary · .while (some cond) (some body))]
  | .block pos stmts => return [← withItems pos .block (Stmt.buildAll stmts)]
  | .empty _ => return []
  | .vars decl => decl.build
  | .expr _ value => return [← value.build]

def Stmt.buildAll : List Stmt → Alloc (List Node)
  | [] => return []
  | s :: ss => do
    let ns ← s.build
    let more ← Stmt.buildAll ss
    return ns ++ more

end

def Param.build (p : Param) : Alloc Node := do
  let type ← p.type.build
  let name ← p.declarator.build
  allocAt p.pos (.binary · .declaration (some type) (some name))

/-- A function's type and signature. -/
def FunctionHead.build (h : FunctionHead) : Alloc (Node × Node) := do
  let type ← h.type.build
  let _ ← h.declarator.build
  let params ← withItems h.paramsPos .parameters (h.params.mapM Param.build)
  let signature ← allocAt h.declarator.namePos
    (.unary · (.signature h.declarator.name) (some params))
  return (type, signature)

def External.build : External → Alloc (List Node)
  | .prototype head => do
    let (type, signature) ← head.build
    return [← allocAt head.pos (.binary · .forward (some type) (some signature))]
  | .definition head body => do
    let (type, signature) ← head.build
    let body ← withItems body.pos .block (Stmt.buildAll body.stmts)
    return [← allocAt head.pos (.ternary · .definition (some type) (some signature) (some body))]
  | .vars decl => decl.build

def External.buildAll : List External → Alloc (List Node)
  | [] => return []
  | e :: es => do
    let ns ← e.build
    let more ← External.buildAll es
    return ns ++ more

def Program.build (p : Program) : Alloc Node :=
  withItems p.pos .program (External.buildAll p.externals)

end CSubset.Surface
