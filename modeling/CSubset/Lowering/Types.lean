import CSubset.IR.Type
import CSubset.Operator

/-!
# Types of the source in the representation

Only `void` and `int` have a counterpart of their own; every other type is treated as `int`.
-/

namespace CSubset.Lowering

open IR (Ty)

/-- The counterpart of a type. -/
def lowerTag : Coded TypeTag → Ty
  | .known .void => .void
  | _ => .i32

/-- Whether the counterpart is the type's own. -/
def hasCounterpart : Coded TypeTag → Bool
  | .known .void => true
  | .known .int => true
  | _ => false

/-- The size of a value of this type in bytes. -/
def sizeOfTag : Coded TypeTag → Nat
  | .known .void => 0
  | _ => 4

end CSubset.Lowering
