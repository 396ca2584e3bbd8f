import CSubset.Tree
import Mathlib.Algebra.Group.Int.Defs

/-!
# What executions of trees and of modules have in common

The meaning of the operators, and the world that an execution acts on.

Every operator is a partial function on 32-bit numbers. Sums, differences, products and shifts to
the left are computed on integers and wrap around at 32 bits; division truncates toward zero; a
truth value is the number zero or one. An operation without a value (a zero divisor, a shift by a
negative amount or by 32 and more) is `none`.

The world holds the global variables and remembers the calls of functions that have no body. What
such a function does is up to an interpretation (`Outside`): it may return anything, change the
global variables, depend on all earlier calls, or not return.

Three things are left to a `Convention`, since languages and machines disagree on them: what a
variable holds before it is written, whether the one quotient that does not fit into 32 bits wraps
around as well, and whether a declaration behind a return, where no execution gets, hides older
ones.
-/

namespace CSubset

variable {y x : Int32}

/-- What a language definition leaves open and a platform decides. -/
structure Convention where
  /-- What a variable holds until it is written; `none` if reading it then has no meaning. -/
  fresh : Option Int32
  /-- Whether the least number divided by minus one wraps around to itself, with the remainder zero.
  Otherwise neither of the two operations has a value. -/
  quotientWraps : Bool
  /-- Whether a declaration behind the end of its list of statements hides older declarations of its
  name. -/
  deadDeclares : Bool
  deriving DecidableEq, Repr

/-- Whether `x` can be divided by `y`. -/
def Convention.divides (conv : Convention) (x y : Int32) : Bool :=
  y ≠ 0 && (conv.quotientWraps || !(x = Int32.minValue && y = -1))

/-- The number that stands for a truth value. -/
def truth (b : Bool) : Int32 := if b then 1 else 0

theorem truth_ne_zero (b : Bool) : decide (truth b ≠ 0) = b := by
  cases b <;> decide

/-! ## The four families -/

def ArithOp.value? (conv : Convention) (op : ArithOp) (x y : Int32) : Option Int32 :=
  match op with
  | .add => some (.ofInt (x.toInt + y.toInt))
  | .sub => some (.ofInt (x.toInt - y.toInt))
  | .mul => some (.ofInt (x.toInt * y.toInt))
  | .div => if conv.divides x y then some (.ofInt (x.toInt.tdiv y.toInt)) else none
  | .mod => if conv.divides x y then some (.ofInt (x.toInt.tmod y.toInt)) else none

/-- The amount of a shift, if it is one. -/
def shiftAmount? (y : Int32) : Option Nat := if 0 ≤ y ∧ y < 32 then some y.toInt.toNat else none

/-- A shift to the left multiplies by a power of two, a shift to the right divides by one and rounds
down. -/
def BitOp.value? (op : BitOp) (x y : Int32) : Option Int32 :=
  match op with
  | .and => some (x &&& y)
  | .or => some (x ||| y)
  | .xor => some (x ^^^ y)
  | .shl => (shiftAmount? y).map fun k => .ofInt (x.toInt * 2 ^ k)
  | .shr => (shiftAmount? y).map fun k => .ofInt (x.toInt / 2 ^ k)

def CmpOp.holds (op : CmpOp) (x y : Int32) : Bool :=
  match op with
  | .lt => x.toInt < y.toInt
  | .gt => y.toInt < x.toInt
  | .ge => y.toInt ≤ x.toInt
  | .le => x.toInt ≤ y.toInt
  | .eq => x.toInt = y.toInt
  | .ne => x.toInt ≠ y.toInt

def BoolOp.connect (op : BoolOp) (a b : Bool) : Bool :=
  match op with
  | .and => a && b
  | .or => a || b

/-- The operation that a form of node stands for, on the values of its two children. -/
def BinaryForm.operation? (conv : Convention) : BinaryForm → Option (Int32 → Int32 → Option Int32)
  | .arithmetic (.known op) => some (op.value? conv)
  | .bitwise (.known op) => some op.value?
  | .comparison (.known op) => some fun x y => some (truth (op.holds x y))
  | .boolean (.known op) => some fun x y => some (truth (op.connect (x ≠ 0) (y ≠ 0)))
  | _ => none

/-! ## Operations of 32-bit words

The same operations on words as a machine has them. -/

theorem value?_add (conv : Convention) (x y : Int32) :
    ArithOp.value? conv .add x y = some (x + y) := by
  simp [ArithOp.value?]

theorem value?_sub (conv : Convention) (x y : Int32) :
    ArithOp.value? conv .sub x y = some (x - y) := by
  simp [ArithOp.value?]

theorem value?_mul (conv : Convention) (x y : Int32) :
    ArithOp.value? conv .mul x y = some (x * y) := by
  simp [ArithOp.value?]

theorem ofInt_tdiv_toInt (x y : Int32) : Int32.ofInt (x.toInt.tdiv y.toInt) = x / y := by
  rw [Int32.ofInt_tdiv x.minValue_le_toInt x.toInt_le y.minValue_le_toInt y.toInt_le,
    Int32.ofInt_toInt, Int32.ofInt_toInt]

theorem ofInt_tmod_toInt (x y : Int32) : Int32.ofInt (x.toInt.tmod y.toInt) = x % y := by
  rw [Int32.ofInt_tmod x.minValue_le_toInt x.toInt_le y.minValue_le_toInt y.toInt_le,
    Int32.ofInt_toInt, Int32.ofInt_toInt]

theorem value?_div (conv : Convention) (x y : Int32) :
    ArithOp.value? conv .div x y = if conv.divides x y then some (x / y) else none := by
  rw [ArithOp.value?, ofInt_tdiv_toInt]

theorem value?_mod (conv : Convention) (x y : Int32) :
    ArithOp.value? conv .mod x y = if conv.divides x y then some (x % y) else none := by
  rw [ArithOp.value?, ofInt_tmod_toInt]

theorem smod_amount (h0 : 0 ≤ y) (h32 : y < 32) : y.toBitVec.smod 32 = y.toBitVec := by
  have h0' : 0 ≤ y.toInt := by simpa using Int32.le_iff_toInt_le.mp h0
  have h32' : y.toInt < 32 := Int32.lt_iff_toInt_lt.mp h32
  apply BitVec.eq_of_toInt_eq
  rw [BitVec.toInt_smod]
  show y.toInt.fmod 32 = y.toInt
  rw [Int.fmod_eq_emod_of_nonneg _ (by decide)]
  exact Int.emod_eq_of_lt h0' h32'

theorem toNat_amount (h0 : 0 ≤ y) : y.toBitVec.toNat = y.toInt.toNat := by
  have h0' : 0 ≤ y.toInt := by simpa using Int32.le_iff_toInt_le.mp h0
  show y.toBitVec.toNat = y.toBitVec.toInt.toNat
  have h : 0 ≤ y.toBitVec.toInt := h0'
  have := BitVec.toInt_eq_toNat_bmod y.toBitVec
  have hlt := y.toBitVec.isLt
  rw [BitVec.toInt_eq_toNat_cond] at h ⊢
  split at h <;> split <;> omega

theorem shiftLeft_eq (h0 : 0 ≤ y) (h32 : y < 32) :
    x <<< y = Int32.ofInt (x.toInt * 2 ^ y.toInt.toNat) := by
  apply Int32.toBitVec_inj.mp
  rw [Int32.toBitVec_shiftLeft, smod_amount h0 h32, BitVec.shiftLeft_eq', toNat_amount h0,
    BitVec.shiftLeft_eq_mul_twoPow, Int32.toBitVec_ofInt, BitVec.ofInt_mul]
  have hx : BitVec.ofInt 32 x.toInt = x.toBitVec := BitVec.ofInt_toInt
  have hpow : BitVec.ofInt 32 (2 ^ y.toInt.toNat) = BitVec.twoPow 32 y.toInt.toNat := by
    apply BitVec.eq_of_toNat_eq
    rw [BitVec.toNat_twoPow, show (2 : Int) ^ y.toInt.toNat =
      ((2 ^ y.toInt.toNat : Nat) : Int) by simp, BitVec.ofInt_natCast, BitVec.toNat_ofNat]
  rw [hx, hpow]

theorem shiftRight_eq (h0 : 0 ≤ y) (h32 : y < 32) :
    x >>> y = Int32.ofInt (x.toInt / 2 ^ y.toInt.toNat) := by
  apply Int32.toBitVec_inj.mp
  rw [Int32.toBitVec_shiftRight, smod_amount h0 h32, BitVec.sshiftRight_eq', toNat_amount h0]
  have hdiv : x.toInt / 2 ^ y.toInt.toNat = (x.toBitVec.sshiftRight y.toInt.toNat).toInt := by
    rw [BitVec.toInt_sshiftRight, Int.shiftRight_eq_div_pow]
    simp
  rw [hdiv, Int32.toBitVec_ofInt, BitVec.ofInt_toInt]

/-! ## The world -/

/-- A call of a function without a body. -/
structure Call where
  callee : String
  args : List Int32
  deriving DecidableEq, Repr

structure World where
  /-- What the global variables hold. -/
  globals : String → Int32
  /-- The calls of functions without a body so far, latest last. -/
  calls : List Call

/-- Give a global variable a value. -/
def World.setGlobal (w : World) (name : String) (v : Int32) : World :=
  { w with globals := fun other => if other = name then v else w.globals other }

/-- An interpretation of the functions without a body. From the calls so far, the callee, its
arguments and the global variables it gives the returned value, if any, and the new global
variables; `none` if the function does not return. -/
abbrev Outside :=
  List Call → String → List Int32 → (String → Int32) → Option (Option Int32 × (String → Int32))

/-- Call a function without a body. -/
def Outside.call (outside : Outside) (callee : String) (args : List Int32) (w : World) :
    Option (Option Int32 × World) :=
  match outside w.calls callee args w.globals with
  | some (v, globals) => some (v, ⟨globals, w.calls ++ [⟨callee, args⟩]⟩)
  | none => none

end CSubset
