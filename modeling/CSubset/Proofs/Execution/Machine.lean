import CSubset.IR.Module
import CSubset.Proofs.Execution.Basic

/-!
# Execution of modules

A machine that runs the functions of a module, one instruction or block end at a time. A running
function is an activation: its arguments, the results computed so far, the cells of its slots and
the place of the next instruction. A slot is allocated anew each time its instruction is executed.
Addresses are values of their own; only numbers can be stored, passed and returned.

The machine is stuck (`step` gives `none`) where an instruction has no meaning: an operand that has
not been computed, an operand of the wrong type, a cell that holds nothing, an operation without a
value, a call with the wrong number of arguments.
-/

namespace CSubset.IR

/-! ## Operations -/

def BinOp.onInts (conv : Convention) (op : BinOp) (x y : Int32) : Option Int32 :=
  match op with
  | .add => some (x + y)
  | .sub => some (x - y)
  | .mul => some (x * y)
  | .sdiv => if conv.divides x y then some (x / y) else none
  | .srem => if conv.divides x y then some (x % y) else none
  | .and => some (x &&& y)
  | .or => some (x ||| y)
  | .xor => some (x ^^^ y)
  | .shl => if 0 ≤ y ∧ y < 32 then some (x <<< y) else none
  | .ashr => if 0 ≤ y ∧ y < 32 then some (x >>> y) else none

def BinOp.onBools (op : BinOp) (a b : Bool) : Option Bool :=
  match op with
  | .and => some (a && b)
  | .or => some (a || b)
  | _ => none

def Pred.holds (p : Pred) (x y : Int32) : Bool :=
  match p with
  | .slt => x < y
  | .sgt => y < x
  | .sge => y ≤ x
  | .sle => x ≤ y
  | .eq => x = y
  | .ne => x ≠ y

namespace Machine

/-- What an operand can be at run time. -/
inductive Datum where
  | int (value : Int32)
  | bool (value : Bool)
  /-- The address of a cell of the running activation. -/
  | cell (index : Nat)
  /-- The address of a global variable. -/
  | global (name : String)
  deriving DecidableEq, Repr

def Datum.int? : Datum → Option Int32
  | .int v => some v
  | _ => none

def Datum.bool? : Datum → Option Bool
  | .bool b => some b
  | _ => none

/-- The result of an operation on two data. -/
def compute (conv : Convention) (op : BinOp) : Datum → Datum → Option Datum
  | .int x, .int y => (op.onInts conv x y).map .int
  | .bool a, .bool b => (op.onBools a b).map .bool
  | _, _ => none

/-! ## Activations -/

structure Activation where
  func : Func
  args : List Int32
  block : Nat
  /-- How many instructions of the block have been executed. -/
  offset : Nat
  results : Nat → Option Datum
  /-- The cells of the slots, each with what it holds. -/
  cells : List (Option Int32)

namespace Activation

/-- A function about to run. -/
def enter (f : Func) (args : List Int32) : Activation := ⟨f, args, 0, 0, fun _ => none, []⟩

def value (a : Activation) : Value → Option Datum
  | .const v => some (.int v)
  | .param i _ => a.args[i]?.map .int
  | .result number _ => a.results number
  | .global name _ => some (.global name)

def int (a : Activation) (v : Value) : Option Int32 := do (← a.value v).int?

def bool (a : Activation) (v : Value) : Option Bool := do (← a.value v).bool?

/-- Go on to the next instruction. -/
def next (a : Activation) : Activation := { a with offset := a.offset + 1 }

/-- Go on with another block. -/
def goto (a : Activation) (block : Nat) : Activation := { a with block, offset := 0 }

def setResult (a : Activation) (number : Nat) (d : Datum) : Activation :=
  { a with results := fun other => if other = number then some d else a.results other }

/-- Allocate a cell for the slot with this number. -/
def allocate (a : Activation) (conv : Convention) (number : Nat) : Activation :=
  { a.setResult number (.cell a.cells.length) with cells := a.cells ++ [conv.fresh] }

/-- Take up the value that a called function returned. -/
def resume (a : Activation) (number : Nat) : Option Int32 → Activation
  | some v => a.setResult number (.int v)
  | none => a

end Activation

/-- What an address refers to. -/
def load (a : Activation) (w : World) : Datum → Option Int32
  | .cell i => a.cells[i]?.join
  | .global name => some (w.globals name)
  | _ => none

/-- Change what an address refers to. -/
def store (a : Activation) (w : World) (v : Int32) : Datum → Option (Activation × World)
  | .cell i =>
    if i < a.cells.length then some ({ a with cells := a.cells.set i (some v) }, w) else none
  | .global name => some (a, w.setGlobal name v)
  | _ => none

/-! ## The machine -/

/-- An activation that waits for a call, with the number of the call's result. -/
structure Caller where
  number : Nat
  activation : Activation

inductive Config where
  | running (a : Activation) (callers : List Caller) (w : World)
  | done (value : Option Int32) (w : World)

/-- Return from a function. -/
def leave (v : Option Int32) (w : World) : List Caller → Config
  | [] => .done v w
  | c :: callers => .running (c.activation.resume c.number v) callers w

/-- Call a function. One without blocks is called outside. -/
def call (m : Module) (outside : Outside) (callee : String) (args : List Int32) (caller : Caller)
    (callers : List Caller) (w : World) : Option Config := do
  let f ← m.func? callee
  if f.blocks.isEmpty then
    let (v, w) ← outside.call callee args w
    return leave v w (caller :: callers)
  else
    guard (args.length = f.params.length)
    return .running (.enter f args) (caller :: callers) w

/-- Execute an instruction. -/
def perform (m : Module) (conv : Convention) (outside : Outside) (i : Instr) (a : Activation)
    (callers : List Caller) (w : World) : Option Config :=
  match i.op with
  | .alloca _ _ _ => return .running (a.allocate conv i.number).next callers w
  | .load _ slot => do
    let v ← load a w (← a.value slot)
    return .running (a.setResult i.number (.int v)).next callers w
  | .store value slot => do
    let v ← a.int value
    let (a, w) ← store a w v (← a.value slot)
    return .running a.next callers w
  | .binary op left right => do
    let d ← compute conv op (← a.value left) (← a.value right)
    return .running (a.setResult i.number d).next callers w
  | .icmp pred left right => do
    let d := Datum.bool (pred.holds (← a.int left) (← a.int right))
    return .running (a.setResult i.number d).next callers w
  | .zext value _ => do
    return .running (a.setResult i.number (.int (truth (← a.bool value)))).next callers w
  | .call callee _ args => do
    call m outside callee (← args.mapM a.int) ⟨i.number, a.next⟩ callers w

/-- Execute the end of a block. -/
def finish (t : Term) (a : Activation) (callers : List Caller) (w : World) : Option Config :=
  match t with
  | .ret none => return leave none w callers
  | .ret (some v) => return leave (some (← a.int v)) w callers
  | .br target => return .running (a.goto target) callers w
  | .condBr cond ifTrue ifFalse =>
    return .running (a.goto (if ← a.bool cond then ifTrue else ifFalse)) callers w

def step (m : Module) (conv : Convention) (outside : Outside) : Config → Option Config
  | .done _ _ => none
  | .running a callers w => do
    let b ← a.func.blocks[a.block]?
    match b.instrs[a.offset]? with
    | some i => perform m conv outside i a callers w
    | none => finish (← b.term) a callers w

/-- Take up to this many steps. -/
def run (m : Module) (conv : Convention) (outside : Outside) : Nat → Config → Config
  | 0, c => c
  | n + 1, c =>
    match step m conv outside c with
    | some c => run m conv outside n c
    | none => c

/-- The machine about to run a function with a body. -/
def start? (m : Module) (name : String) (args : List Int32) (w : World) : Option Config := do
  let f ← m.func? name
  guard (!f.blocks.isEmpty && args.length = f.params.length)
  return .running (.enter f args) [] w

end Machine

end CSubset.IR
