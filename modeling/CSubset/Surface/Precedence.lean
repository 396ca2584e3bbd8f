import CSubset.Surface.Syntax

/-!
# Precedence

Operands joined by binary operators are first read as a flat chain and then grouped: the chain is
cut at its loosest operators, the pieces are grouped by the tighter ones, and the results are joined
from left to right.
-/

namespace CSubset.Surface

/-- An operator and the operand on its right. -/
structure Link where
  pos : Pos
  op : Operator
  operand : Expr
  deriving Repr

namespace Link

def join (left : Expr) (l : Link) (right : Expr) : Expr := .binary l.pos l.op left right

/-- The links before the first one of `level`, and each link of that level with the links up to the
next. -/
def cut (level : Nat) : List Link → List Link × List (Link × List Link)
  | [] => ([], [])
  | l :: links =>
    let (run, pieces) := cut level links
    if l.op.level = level then ([], (l, run) :: pieces) else (l :: run, pieces)

/-- The expression that a chain of operands stands for, for operators of the given levels, loosest
first. -/
def group : List Nat → Expr → List Link → Expr
  | [], first, links => links.foldl (fun left l => l.join left l.operand) first
  | level :: tighter, first, links =>
    let (run, pieces) := cut level links
    pieces.foldl (fun left (l, run) => l.join left (group tighter l.operand run))
      (group tighter first run)

end Link

end CSubset.Surface
