import CSubset.Tree.Sketch

/-!
# Constant folding

Folding copies a tree into another arena and replaces arithmetic on integer constants by its result,
from the leaves upwards. Arithmetic wraps at 32 bits, division truncates toward zero. Bitwise
operations, comparisons and connectives are copied even where both sides are constant.

A constant expression without a value makes folding fail. What was allocated before stays allocated.
-/

namespace CSubset

/-- Why a constant expression has no value. -/
inductive FoldCause where
  | divisionByZero
  | moduloByZero
  | unknownOperator (code : Int)
  deriving DecidableEq, Repr

def FoldCause.message : FoldCause → String
  | .divisionByZero => "constant division by zero"
  | .moduloByZero => "constant modulo by zero"
  | .unknownOperator code =>
    s!"unknown arithmetic operator {Coded.text (.unknown code : Coded ArithOp)}"

/-- A cause, and the node of the input that has no value. -/
structure FoldError where
  cause : FoldCause
  stamp : Stamp
  deriving DecidableEq, Repr

def FoldError.message (e : FoldError) : String := s!"{e.stamp.pos.text}: {e.cause.message}"

/-- The value of an operation on constants. -/
def ArithOp.eval (op : ArithOp) (x y : Int32) : Except FoldCause Int32 :=
  match op with
  | .add => .ok (x + y)
  | .sub => .ok (x - y)
  | .mul => .ok (x * y)
  | .div => if y = 0 then .error .divisionByZero else .ok (x / y)
  | .mod => if y = 0 then .error .moduloByZero else .ok (x % y)

def evalCoded (op : Coded ArithOp) (x y : Int32) : Except FoldCause Int32 :=
  match op with
  | .known op => op.eval x y
  | .unknown code => .error (.unknownOperator code)

/-- Folding allocates nodes and may fail. -/
abbrev FoldM := ExceptT FoldError Alloc

/-- Build the folded node for arithmetic at `stamp` over folded operands. -/
def foldArithmetic (stamp : Stamp) (op : Coded ArithOp) (left right : Option Node) :
    FoldM Node := do
  Arena.setMark stamp.pos
  match left, right with
  | some (.leaf _ (.intConst x)), some (.leaf _ (.intConst y)) =>
    match evalCoded op x y with
    | .ok value => Arena.alloc (.leaf · (.intConst value))
    | .error cause => throw ⟨cause, stamp⟩
  | _, _ => Arena.alloc (.binary · (.arithmetic op) left right)

mutual

def Node.fold : Node → FoldM Node
  | .leaf stamp form => Arena.allocAt stamp.pos (.leaf · form)
  | .seq stamp form items => do
    let items ← Node.foldItems items
    Arena.allocAt stamp.pos (.seq · form items)
  | .unary stamp form child => do
    let child ← Node.foldChild child
    Arena.allocAt stamp.pos (.unary · form child)
  | .binary stamp form left right => do
    let left ← Node.foldChild left
    let right ← Node.foldChild right
    match form with
    | .arithmetic op => foldArithmetic stamp op left right
    | form => Arena.allocAt stamp.pos (.binary · form left right)
  | .ternary stamp form first second third => do
    let first ← Node.foldChild first
    let second ← Node.foldChild second
    let third ← Node.foldChild third
    Arena.allocAt stamp.pos (.ternary · form first second third)

def Node.foldChild : Option Node → FoldM (Option Node)
  | none => return none
  | some n => return some (← Node.fold n)

def Node.foldItems : List (Option Node) → FoldM (List (Option Node))
  | [] => return []
  | n :: ns => do
    let n ← Node.foldChild n
    let ns ← Node.foldItems ns
    return n :: ns

end

end CSubset
