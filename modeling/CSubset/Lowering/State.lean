import CSubset.IR.Module
import CSubset.Lowering.Cause

/-!
# The state of lowering

The module so far, what every name stands for, and the body under construction. There is one table
of names for the whole module: a later binding of a name replaces the earlier one, whatever the
block or function.

A step either succeeds, rejects the construct, or faults; what it did to the state before stays done
in all three cases.
-/

namespace CSubset.Lowering

open IR (Ty Value Op Instr Term Block Func Module)

/-- What a name stands for. -/
inductive Symbol where
  /-- The function of this name in the module. -/
  | func
  /-- A slot, and the function that it belongs to unless it is global. -/
  | var (slot : Value) (owner : Option String)
  deriving DecidableEq, Repr

/-- A body under construction. -/
structure Frame where
  func : String
  ret : Ty
  blocks : List Block
  /-- The block that is being filled. -/
  cursor : Option Nat
  /-- How often a local name has been asked for, latest first. -/
  names : List (String × Nat)
  /-- The number for the next instruction. -/
  count : Nat
  deriving DecidableEq, Repr

structure State where
  module : Module
  /-- The bindings of names, latest first. -/
  symbols : List (String × Symbol)
  /-- The functions whose definition has been begun. -/
  defined : List String
  /-- The function that rejections are reported in; empty outside functions. -/
  scope : String
  frame : Option Frame
  warnings : List Warning
  rejections : List Rejection
  deriving DecidableEq, Repr

/-- An empty module for a source of this name. -/
def State.start (sourceName : String) : State where
  module := ⟨sourceName, [], []⟩
  symbols := []
  defined := []
  scope := ""
  frame := none
  warnings := []
  rejections := []

/-- Why a step did not succeed. -/
inductive Stop where
  | rejected (r : Rejection)
  | fault (f : Fault)
  deriving DecidableEq, Repr

abbrev LowerM := ExceptT Stop (StateM State)

def faulty {α : Type} (f : Fault) : LowerM α := throw (.fault f)

def reject {α : Type} (cause : Cause) (place : Option Place) : LowerM α := do
  throw (.rejected ⟨cause, place, (← get).scope⟩)

def rejectAt {α : Type} (n : Node) (cause : Cause) : LowerM α := reject cause (some n.place)

def warn (pos : Option Pos) (cause : WarningCause) : LowerM Unit :=
  modify fun s => { s with warnings := s.warnings ++ [⟨pos, cause⟩] }

/-- Continue after a rejection, keeping it for the report. -/
def recording (step : LowerM Unit) : LowerM Unit :=
  tryCatch step fun
    | .rejected r => modify fun s => { s with rejections := s.rejections ++ [r] }
    | .fault f => faulty f

/-! ## Names -/

def bindSymbol (name : String) (symbol : Symbol) : LowerM Unit :=
  modify fun s => { s with symbols := (name, symbol) :: s.symbols }

def State.symbol? (s : State) (name : String) : Option Symbol := s.symbols.lookup name

/-- The function that a name stands for. -/
def State.callee? (s : State) (name : String) : Option Func :=
  match s.symbol? name with
  | some .func => s.module.func? name
  | _ => none

/-! ## The body under construction -/

def inFunction : LowerM Bool := return (← get).frame.isSome

def getFrame : LowerM Frame := do
  match (← get).frame with
  | some frame => return frame
  | none => faulty .noFunction

def setFrame (frame : Frame) : LowerM Unit := modify fun s => { s with frame := some frame }

/-- The block that is being filled, with its index. -/
def Frame.current? (f : Frame) : Option (Nat × Block) := do
  let i ← f.cursor
  let b ← f.blocks[i]?
  return (i, b)

/-- Whether something can be appended. -/
def Frame.isOpen (f : Frame) : Bool :=
  match f.current? with
  | some (_, b) => b.term.isNone
  | none => false

def isOpen : LowerM Bool := do
  match (← get).frame with
  | some frame => return frame.isOpen
  | none => return false

/-- The block to append to, with its index. -/
def getOpenBlock : LowerM (Nat × Block) := do
  match (← getFrame).current? with
  | none => faulty .noBlock
  | some (i, b) => if b.term.isSome then faulty .closedBlock else return (i, b)

/-- A local name that has not been used in this function, made from `base`. -/
def freshName (base : String) : LowerM String := do
  let frame ← getFrame
  let used := (frame.names.lookup base).getD 0
  setFrame { frame with names := (base, used + 1) :: frame.names }
  return if used = 0 then base else s!"{base}.{used}"

/-- Add an open block; what is being filled does not change. -/
def newBlock (base : String) : LowerM Nat := do
  let label ← freshName base
  let frame ← getFrame
  setFrame { frame with blocks := frame.blocks ++ [⟨label, [], none⟩] }
  return frame.blocks.length

def moveTo (cursor : Option Nat) : LowerM Unit := do
  setFrame { ← getFrame with cursor := cursor }

/-- Append an instruction. -/
def emit (op : Op) : LowerM Value := do
  let (i, b) ← getOpenBlock
  let frame ← getFrame
  let block := { b with instrs := b.instrs ++ [⟨frame.count, op⟩] }
  setFrame { frame with blocks := frame.blocks.set i block, count := frame.count + 1 }
  return .result frame.count op.ty

/-- End the block that is being filled. -/
def close (term : Term) : LowerM Unit := do
  let (i, b) ← getOpenBlock
  let frame ← getFrame
  setFrame { frame with blocks := frame.blocks.set i { b with term := some term } }

/-- A new slot in the current function. -/
def newSlot (name : String) (elem : Ty) (align : Nat) : LowerM Value := do
  let name ← freshName name
  emit (.alloca name elem align)

end CSubset.Lowering
