import CSubset.IR.Constant
import CSubset.IR.Module
import CSubset.IR.Name

/-!
# The text of a module

The parameters and results of a function that have no name share one numbering, in the order in
which they are printed, whatever the order of their creation: first the parameters, then the
results.
-/

namespace CSubset.IR

/-! ## Values -/

/-- How the parameters and the results of a function are written. -/
structure Names where
  params : List String
  results : List (Nat × String)

def localText (name : String) : String := "%" ++ Name.text name

/-- A module has at most one global or function without a name. -/
def globalText (name : String) : String := if name.isEmpty then "@0" else "@" ++ Name.text name

def Value.text (names : Names) : Value → String
  | .const value => Constant.text value
  | .param index _ => names.params.getD index "%0"
  | .result number _ => (names.results.lookup number).getD "%0"
  | .global name _ => globalText name

/-- A value after its type. -/
def Value.typedText (names : Names) (v : Value) : String := s!"{v.ty.text} {v.text names}"

/-! ## Instructions -/

def BinOp.text : BinOp → String
  | .add => "add"
  | .sub => "sub"
  | .mul => "mul"
  | .sdiv => "sdiv"
  | .srem => "srem"
  | .and => "and"
  | .or => "or"
  | .xor => "xor"
  | .shl => "shl"
  | .ashr => "ashr"

def Pred.text : Pred → String
  | .slt => "slt"
  | .sgt => "sgt"
  | .sge => "sge"
  | .sle => "sle"
  | .eq => "eq"
  | .ne => "ne"

def commaSeparated (texts : List String) : String := ", ".intercalate texts

def Op.text (names : Names) : Op → String
  | .alloca _ elem align => s!"alloca {elem.text}, align {align}"
  | .load elem slot => s!"load {elem.text}, {slot.typedText names}"
  | .store value slot => s!"store {value.typedText names}, {slot.typedText names}"
  | .binary op left right => s!"{op.text} {left.typedText names}, {right.text names}"
  | .icmp pred left right => s!"icmp {pred.text} {left.typedText names}, {right.text names}"
  | .zext value target => s!"zext {value.typedText names} to {target.text}"
  | .call callee ret args =>
    s!"call {ret.text} {globalText callee}({commaSeparated (args.map (Value.typedText names))})"

def Instr.text (names : Names) (i : Instr) : String :=
  if i.op.ty.isVoid then i.op.text names
  else s!"{(Value.result i.number i.op.ty).text names} = {i.op.text names}"

/-- The label of a block, by its index. -/
def labelText (labels : List String) (i : Nat) : String := "label " ++ localText (labels.getD i "")

def Term.text (names : Names) (labels : List String) : Term → String
  | .ret none => "ret void"
  | .ret (some v) => s!"ret {v.typedText names}"
  | .br target => s!"br {labelText labels target}"
  | .condBr cond ifTrue ifFalse =>
    s!"br {cond.typedText names}, {labelText labels ifTrue}, {labelText labels ifFalse}"

/-! ## Functions -/

def Block.lines (names : Names) (labels : List String) (b : Block) : List String :=
  (Name.text b.label ++ ":") ::
    (b.instrs.map (·.text names) ++ (b.term.map (·.text names labels)).toList).map ("\t" ++ ·)

/-- The name that an instruction brings with it. -/
def Op.name? : Op → Option String
  | .alloca name _ _ => if name.isEmpty then none else some name
  | _ => none

/-- Name the results of instructions in printed order, where the next free number is `next`. -/
def nameResults (next : Nat) : List Instr → List (Nat × String)
  | [] => []
  | i :: rest =>
    match i.op.name? with
    | some name => (i.number, localText name) :: nameResults next rest
    | none =>
      if i.op.ty.isVoid then nameResults next rest
      else (i.number, s!"%{next}") :: nameResults (next + 1) rest

/-- Name the parameters of a function in order, where the next free number is `next`. -/
def nameParams (next : Nat) : List Param → List String
  | [] => []
  | p :: rest =>
    if p.name.isEmpty then s!"%{next}" :: nameParams (next + 1) rest
    else localText p.name :: nameParams next rest

def Func.names (f : Func) : Names where
  params := nameParams 0 f.params
  results := nameResults (f.params.countP (·.name.isEmpty)) (f.blocks.flatMap (·.instrs))

def Func.head (f : Func) : String :=
  let params := f.params.zipWith (fun p name => s!"{p.ty.text} {name}") f.names.params
  s!"{f.ret.text} {globalText f.name}({commaSeparated params})"

def Func.lines (f : Func) : List String :=
  if f.blocks.isEmpty then ["declare " ++ f.head]
  else
    let labels := f.blocks.map (·.label)
    let blocks := f.blocks.map (·.lines f.names labels)
    ("define " ++ f.head ++ " \x7b") :: [""].intercalate blocks ++ ["\x7d"]

/-! ## Modules -/

def Global.line (g : Global) : String := s!"{globalText g.name} = global {g.ty.text} 0"

/-- The lines of a module: the source's name, the globals and each function, with an empty line
between. -/
def Module.lines (m : Module) : List String :=
  let source :=
    if m.sourceName.isEmpty then [] else [["source_filename = " ++ Name.quoted m.sourceName]]
  let globals := if m.globals.isEmpty then [] else [m.globals.map Global.line]
  [""].intercalate (source ++ globals ++ m.funcs.map Func.lines)

def Module.text (m : Module) : String := String.join (m.lines.map (· ++ "\n"))

end CSubset.IR
