/-!
# Types of the intermediate representation
-/

namespace CSubset.IR

inductive Ty where
  | void
  | i1
  | i8
  | i32
  | i64
  /-- The address of a slot that holds a value of type `elem`. -/
  | ptr (elem : Ty)
  deriving DecidableEq, Repr

namespace Ty

def text : Ty → String
  | .void => "void"
  | .i1 => "i1"
  | .i8 => "i8"
  | .i32 => "i32"
  | .i64 => "i64"
  | .ptr elem => elem.text ++ "*"

def isVoid (t : Ty) : Bool := t = .void

/-- Whether this is the type of a comparison's result. -/
def isBool (t : Ty) : Bool := t = .i1

def isInt32 (t : Ty) : Bool := t = .i32

/-- What a slot at an address of this type holds. -/
def pointee? : Ty → Option Ty
  | .ptr elem => some elem
  | _ => none

end Ty

end CSubset.IR
