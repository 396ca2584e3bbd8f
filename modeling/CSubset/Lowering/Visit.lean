import CSubset.Lowering.Declare

/-!
# Lowering a tree

Expressions are lowered to instructions of the block that is being filled, statements also to new
blocks. Both operands of `&&` and `||` are evaluated. An `if` with an `else` has no block after it:
both branches have to leave the function.
-/

namespace CSubset.Lowering

open IR (Ty Value Op BinOp Pred Term Func)

/-! ## Values -/

/-- The value in a slot; other values are as they are. -/
def load (v : Value) : LowerM Value :=
  match v.ty.pointee? with
  | some elem => emit (.load elem v)
  | none => return v

/-- The value as one of type `want`: a truth value is zero or one, a number is true unless it is
zero. -/
def coerce (n : Node) (v : Value) (want : Ty) : LowerM Value :=
  if v.ty = want then return v
  else if v.ty.isVoid then rejectAt n .voidValue
  else if v.ty.isBool && want.isInt32 then emit (.zext v .i32)
  else if v.ty.isInt32 && want.isBool then emit (.icmp .ne v (.const 0))
  else rejectAt n (.cannotConvert v.ty want)

/-- The slot that a name list stands for. -/
def resolve (n : Node) (names : List String) : LowerM Value :=
  match Tree.singleName? names with
  | none => rejectAt n (.nameCount names.length)
  | some name => do
    let s ← get
    match s.symbol? name with
    | none => rejectAt n (.undeclaredVariable name)
    | some .func => rejectAt n (.functionAsValue name)
    | some (.var slot owner) =>
      match owner with
      | none => return slot
      | some owner =>
        if s.frame.map (·.func) = some owner then return slot
        else rejectAt n (.foreignVariable name owner)

def visitLeaf (n : Node) : Leaf → LowerM (Option Value)
  | .intConst value => return some (.const value)
  | .strConst contents => rejectAt n (.stringConstant contents)
  | .identifier name => rejectAt n (.bareIdentifier name)
  | .names names _ => return some (← resolve n names)
  | .type tag _ => rejectAt n (.typeAsValue tag)

def arithmeticOp : ArithOp → BinOp
  | .add => .add
  | .sub => .sub
  | .mul => .mul
  | .div => .sdiv
  | .mod => .srem

def comparisonPred : CmpOp → Pred
  | .lt => .slt
  | .gt => .sgt
  | .ge => .sge
  | .le => .sle
  | .eq => .eq
  | .ne => .ne

def booleanOp : BoolOp → BinOp
  | .and => .and
  | .or => .or

/-- A shift by a constant amount; `>>` keeps the sign. -/
def shift (n : Node) (op : BinOp) (x : Value) (amount : Option Node) : LowerM (Option Value) :=
  match amount with
  | some (.leaf _ (.intConst k)) =>
    if 0 ≤ k ∧ k < 32 then return some (← emit (.binary op x (.const k)))
    else rejectAt n (.shiftOutOfRange k)
  | _ => rejectAt n .shiftNotConstant

/-! ## Functions -/

/-- Give each parameter a slot that holds it. The parameters are those of the function from `index`
on, with the names that the signature gives them. -/
def storeParams (func : String) (index : Nat) : List IR.Param → LowerM Unit
  | [] => return
  | p :: rest => do
    let slot ← newSlot (p.name ++ ".addr") p.ty (sizeOfTag (.known .int))
    let _ ← emit (.store (.param index p.ty) slot)
    bindSymbol p.name (.var slot (some func))
    storeParams func (index + 1) rest

/-- Begin the body of a declared function: rename its parameters, open its first block and store the
parameters there. -/
def openBody (name : String) (params : List IR.Param) : LowerM Unit := do
  match (← get).module.func? name with
  | none => faulty .noFunction
  | some f =>
    modify fun s =>
      { s with
        defined := name :: s.defined
        frame := some ⟨name, f.ret, [], none, [], 0⟩ }
    let renamed ← f.params.mapM fun p =>
      return { p with name := ← freshName (IR.Name.shown p.name) }
    modify fun s =>
      { s with module := s.module.modifyFunc name fun f => { f with params := renamed } }
    let entry ← newBlock "entry"
    moveTo (some entry)
    storeParams name 0 params

/-- End the body, check its control flow and give it to the function. -/
def closeBody (n : Node) : LowerM Unit := do
  let frame ← getFrame
  if frame.isOpen then
    if frame.ret.isVoid then close (.ret none) else rejectAt n (.fallsOffEnd frame.func)
  let frame ← getFrame
  match IR.Flow.defect? frame.blocks with
  | some defect => rejectAt n (.flow defect)
  | none =>
    modify fun s =>
      { s with module := s.module.modifyFunc frame.func fun f => { f with blocks := frame.blocks } }

/-- Run a step inside the function `name`, and leave the function however the step ends. -/
def insideFunction (name : String) (step : LowerM Unit) : LowerM Unit := fun s =>
  let (outcome, s) := step { s with scope := name }
  (outcome, { s with scope := "", frame := none })

/-! ## Nodes -/

mutual

/-- Lower a node. Expressions have a value, which may be the address of a slot. -/
def visit : Node → LowerM (Option Value)
  | .leaf stamp form => visitLeaf (.leaf stamp form) form
  | .seq stamp .program items => do
    if ← inFunction then rejectAt (.seq stamp .program items) .nestedProgram
    visitTopLevel items
    return none
  | .seq stamp .block items => do
    if !(← inFunction) then rejectAt (.seq stamp .block items) .blockOutsideFunction
    visitStatements items
    return none
  | .seq stamp .parameters items => rejectAt (.seq stamp .parameters items) .parametersAsValue
  | .unary stamp (.signature name) params =>
    rejectAt (.unary stamp (.signature name) params) (.signatureAsValue name)
  | .unary stamp (.call callee) args => do
    match (← get).callee? callee with
    | none => rejectAt (.unary stamp (.call callee) args) (.undeclaredFunction callee)
    | some f =>
      let values ← visitArgs (f.params.map (·.ty)) args
      return some (← emit (.call f.name f.ret values))
  | .unary stamp .ret value => do
    let n : Node := .unary stamp .ret value
    let ret := (← getFrame).ret
    if value.isNone then
      if !ret.isVoid then rejectAt n (.returnWithoutValue ret)
      close (.ret none)
      return none
    else
      if ret.isVoid then rejectAt n .returnWithValue
      let v ← visitOperand ret value
      close (.ret (some v))
      return none
  | .binary stamp (.arithmetic op) left right => do
    let x ← visitOperand .i32 left
    let y ← visitOperand .i32 right
    match op with
    | .known known => return some (← emit (.binary (arithmeticOp known) x y))
    | .unknown _ => rejectAt (.binary stamp (.arithmetic op) left right) (.arithmeticOperator op)
  | .binary stamp (.bitwise op) left right => do
    let n : Node := .binary stamp (.bitwise op) left right
    let x ← visitOperand .i32 left
    match op with
    | .known .shl => shift n .shl x right
    | .known .shr => shift n .ashr x right
    | .known .and => return some (← emit (.binary .and x (← visitOperand .i32 right)))
    | .known .or => return some (← emit (.binary .or x (← visitOperand .i32 right)))
    | .known .xor => return some (← emit (.binary .xor x (← visitOperand .i32 right)))
    | .unknown _ =>
      let _ ← visitOperand .i32 right
      rejectAt n (.bitwiseOperator op)
  | .binary stamp (.comparison op) left right => do
    match op with
    | .unknown _ => rejectAt (.binary stamp (.comparison op) left right) (.comparisonOperator op)
    | .known known =>
      let x ← visitOperand .i32 left
      let y ← visitOperand .i32 right
      return some (← emit (.icmp (comparisonPred known) x y))
  | .binary stamp (.boolean op) left right => do
    let x ← visitOperand .i1 left
    let y ← visitOperand .i1 right
    match op with
    | .known known => return some (← emit (.binary (booleanOp known) x y))
    | .unknown _ => rejectAt (.binary stamp (.boolean op) left right) (.booleanOperator op)
  | .binary stamp .assign left right => do
    match left with
    | some (.leaf leftStamp (.names names stars)) =>
      let slot ← resolve (.leaf leftStamp (.names names stars)) names
      let v ← visitOperand (slot.ty.pointee?.getD .i32) right
      let _ ← emit (.store v slot)
      return some v
    | left => rejectAt (.binary stamp .assign left right) (.notAssignable (left.map Tree.kind))
  | .binary _ .declaration type names => do
    declareVariable type names
    return none
  | .binary stamp .forward type name => do
    let n : Node := .binary stamp .forward type name
    match type, name with
    | some (.leaf _ (.type _ _)), some (.unary signature (.signature func) params) =>
      if ← inFunction then rejectAt n .nestedPrototype
      let _ ← declareFunction type ⟨.signature, signature.pos⟩ func params false
      return none
    | some (.leaf _ (.type _ _)), some (.leaf _ (.names _ _)) =>
      declareVariable type name
      return none
    | some (.leaf _ (.type _ _)), some other => rejectAt n (.cannotDeclare other.kind)
    | some (.leaf _ (.type _ _)), none => faulty .missingNode
    | _, _ => rejectAt n .untypedDeclaration
  | .binary _ .ifThen cond body => do
    let thenBlock ← newBlock "if.then"
    let endBlock ← newBlock "if.end"
    let c ← visitOperand .i1 cond
    close (.condBr c thenBlock endBlock)
    moveTo (some thenBlock)
    visitStatement body
    if ← isOpen then close (.br endBlock)
    moveTo (some endBlock)
    return none
  | .binary _ .while cond body => do
    let condBlock ← newBlock "while.cond"
    let bodyBlock ← newBlock "while.body"
    let endBlock ← newBlock "while.end"
    close (.br condBlock)
    moveTo (some condBlock)
    let c ← visitOperand .i1 cond
    close (.condBr c bodyBlock endBlock)
    moveTo (some bodyBlock)
    visitStatement body
    if ← isOpen then close (.br condBlock)
    moveTo (some endBlock)
    return none
  | .ternary stamp .ifThenElse cond thenBody elseBody => do
    let n : Node := .ternary stamp .ifThenElse cond thenBody elseBody
    let thenBlock ← newBlock "if.then"
    let elseBlock ← newBlock "if.else"
    let c ← visitOperand .i1 cond
    close (.condBr c thenBlock elseBlock)
    moveTo (some thenBlock)
    visitStatement thenBody
    if ← isOpen then rejectAt n (.openBranch "then")
    moveTo (some elseBlock)
    visitStatement elseBody
    if ← isOpen then rejectAt n (.openBranch "else")
    moveTo none
    return none
  | .ternary stamp .definition ret signature body => do
    let n : Node := .ternary stamp .definition ret signature body
    if ← inFunction then rejectAt n .nestedDefinition
    match signature, body.isSome with
    | some (.unary signature (.signature name) params), true =>
      insideFunction name do
        let params ← declareFunction ret ⟨.signature, signature.pos⟩ name params true
        openBody name params
        visitBody body
        closeBody n
      return none
    | _, _ => rejectAt n .incompleteDefinition

/-- Lower an operand to a value of the given type. -/
def visitOperand (want : Ty) : Option Node → LowerM Value
  | none => reject .missingOperand none
  | some n => do
    match ← visit n with
    | none => rejectAt n (.noValue n.kind)
    | some v => coerce n (← load v) want

/-- Lower the arguments of a call to values of the parameters' types; further ones are numbers. -/
def visitArgs (types : List Ty) : Option Node → LowerM (List Value)
  | some (.seq _ .parameters items) => visitOperands types items
  | _ => return []

def visitOperands (types : List Ty) : List (Option Node) → LowerM (List Value)
  | [] => return []
  | n :: ns => do
    let v ← visitOperand (types.head?.getD .i32) n
    return v :: (← visitOperands types.tail ns)

def visitStatement : Option Node → LowerM Unit
  | none => return
  | some n => do
    let _ ← visit n

/-- Lower statements one after the other. What follows the end of a block cannot run and is left
out. -/
def visitStatements : List (Option Node) → LowerM Unit
  | [] => return
  | n :: ns => do
    if ← isOpen then
      visitStatement n
      visitStatements ns
    else warn (n.map Node.pos) .unreachableCode

/-- The statements of a function's body. -/
def visitBody : Option Node → LowerM Unit
  | some (.seq _ .block items) => visitStatements items
  | _ => return

/-- Lower declarations and definitions one after the other; one that is rejected does not stop the
others. -/
def visitTopLevel : List (Option Node) → LowerM Unit
  | [] => return
  | none :: _ => faulty .missingNode
  | some n :: ns => do
    recording do
      match n.kind with
      | .definition | .forward | .declaration =>
        let _ ← visit n
      | kind => rejectAt n (.atTopLevel kind)
    visitTopLevel ns

end

end CSubset.Lowering
