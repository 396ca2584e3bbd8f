import CSubset.IR.Type

/-!
# Modules of the intermediate representation

A module holds global variables and functions; a function with a body holds blocks. Within a
function a block is known by its index and an instruction by a number of its own, both in the order
of creation; a value refers to the instruction that computes it. Labels and names are for the
printed text only.
-/

namespace CSubset.IR

/-- An operand, with its type. -/
inductive Value where
  | const (value : Int32)
  | param (index : Nat) (ty : Ty)
  /-- The result of the instruction with this number. -/
  | result (number : Nat) (ty : Ty)
  /-- The address of a global variable. -/
  | global (name : String) (elem : Ty)
  deriving DecidableEq, Repr

def Value.ty : Value → Ty
  | .const _ => .i32
  | .param _ ty => ty
  | .result _ ty => ty
  | .global _ elem => .ptr elem

inductive BinOp where
  | add | sub | mul | sdiv | srem | and | or | xor | shl | ashr
  deriving DecidableEq, Repr

/-- The condition that a comparison tests, on signed numbers. -/
inductive Pred where
  | slt | sgt | sge | sle | eq | ne
  deriving DecidableEq, Repr

inductive Op where
  /-- A new slot. One without a name is numbered like any other result. -/
  | alloca (name : String) (elem : Ty) (align : Nat)
  | load (elem : Ty) (slot : Value)
  | store (value slot : Value)
  | binary (op : BinOp) (left right : Value)
  | icmp (pred : Pred) (left right : Value)
  | zext (value : Value) (target : Ty)
  | call (callee : String) (ret : Ty) (args : List Value)
  deriving DecidableEq, Repr

/-- The type of the result; `void` means that there is none. -/
def Op.ty : Op → Ty
  | .alloca _ elem _ => .ptr elem
  | .load elem _ => elem
  | .store _ _ => .void
  | .binary _ left _ => left.ty
  | .icmp _ _ _ => .i1
  | .zext _ target => target
  | .call _ ret _ => ret

structure Instr where
  number : Nat
  op : Op
  deriving DecidableEq, Repr

/-- How a block ends. -/
inductive Term where
  | ret (value : Option Value)
  | br (target : Nat)
  | condBr (cond : Value) (ifTrue ifFalse : Nat)
  deriving DecidableEq, Repr

/-- The blocks that may run next. -/
def Term.targets : Term → List Nat
  | .ret _ => []
  | .br target => [target]
  | .condBr _ ifTrue ifFalse => [ifTrue, ifFalse]

structure Block where
  label : String
  instrs : List Instr
  /-- A block without an end is open: more can be appended to it. -/
  term : Option Term
  deriving DecidableEq, Repr

structure Param where
  name : String
  ty : Ty
  deriving DecidableEq, Repr

/-- A function; one without blocks is only declared. -/
structure Func where
  name : String
  ret : Ty
  params : List Param
  blocks : List Block
  deriving DecidableEq, Repr

structure Global where
  name : String
  ty : Ty
  deriving DecidableEq, Repr

structure Module where
  sourceName : String
  globals : List Global
  funcs : List Func
  deriving DecidableEq, Repr

namespace Module

def func? (m : Module) (name : String) : Option Func := m.funcs.find? (·.name == name)

def hasGlobal (m : Module) (name : String) : Bool := m.globals.any (·.name == name)

def hasFunc (m : Module) (name : String) : Bool := m.funcs.any (·.name == name)

def addFunc (m : Module) (f : Func) : Module := { m with funcs := m.funcs ++ [f] }

def addGlobal (m : Module) (g : Global) : Module := { m with globals := m.globals ++ [g] }

/-- Change the function with this name. -/
def modifyFunc (m : Module) (name : String) (change : Func → Func) : Module :=
  { m with funcs := m.funcs.map fun f => if f.name = name then change f else f }

end Module

end CSubset.IR
