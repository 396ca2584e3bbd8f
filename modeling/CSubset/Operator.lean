import CSubset.Coded

/-!
# Operators and basic types

The eighteen binary operators of the language in their four families, how tightly each of them
binds, and the three basic types.
-/

namespace CSubset

inductive ArithOp where
  | add | sub | mul | div | mod
  deriving DecidableEq, Repr

inductive BitOp where
  | and | or | xor | shl | shr
  deriving DecidableEq, Repr

inductive CmpOp where
  | lt | gt | ge | le | eq | ne
  deriving DecidableEq, Repr

inductive BoolOp where
  | and | or
  deriving DecidableEq, Repr

inductive TypeTag where
  | void | int | char
  deriving DecidableEq, Repr

instance : Enumeration ArithOp where
  label := "ArithOp"
  members := [.add, .sub, .mul, .div, .mod]
  text
    | .add => "+"
    | .sub => "-"
    | .mul => "*"
    | .div => "/"
    | .mod => "%"

instance : Enumeration BitOp where
  label := "BitOp"
  members := [.and, .or, .xor, .shl, .shr]
  text
    | .and => "&"
    | .or => "|"
    | .xor => "^"
    | .shl => "<<"
    | .shr => ">>"

instance : Enumeration CmpOp where
  label := "CmpOp"
  members := [.lt, .gt, .ge, .le, .eq, .ne]
  text
    | .lt => "<"
    | .gt => ">"
    | .ge => ">="
    | .le => "<="
    | .eq => "=="
    | .ne => "!="

instance : Enumeration BoolOp where
  label := "BoolOp"
  members := [.and, .or]
  text
    | .and => "&&"
    | .or => "||"

instance : Enumeration TypeTag where
  label := "TypeTag"
  members := [.void, .int, .char]
  text
    | .void => "void"
    | .int => "int"
    | .char => "char"

/-- A binary operator. -/
inductive Operator where
  | arith (op : ArithOp)
  | bit (op : BitOp)
  | cmp (op : CmpOp)
  | bool (op : BoolOp)
  deriving DecidableEq, Repr

namespace Operator

/-- How tightly an operator binds, from `||` at level zero to the multiplications at level nine. All
operators of a level associate to the left. -/
def level : Operator → Nat
  | .bool .or => 0
  | .bool .and => 1
  | .bit .or => 2
  | .bit .xor => 3
  | .bit .and => 4
  | .cmp .eq | .cmp .ne => 5
  | .cmp .lt | .cmp .gt | .cmp .le | .cmp .ge => 6
  | .bit .shl | .bit .shr => 7
  | .arith .add | .arith .sub => 8
  | .arith .mul | .arith .div | .arith .mod => 9

/-- The levels, loosest first. -/
def levels : List Nat := List.range 10

end Operator

end CSubset
