import CSubset.Lowering.State
import CSubset.Lowering.Types

/-!
# Declarations

Variables become global variables at top level and slots inside a function. A function is created by
the first declaration or definition of its name; later ones have to agree with it.
-/

namespace CSubset.Lowering

open IR (Ty Value Func)

/-- The counterpart of a type node, with a warning where it is not the type's own. -/
def lowerType : Option Node → LowerM Ty
  | some (.leaf stamp (.type tag _)) => do
    if !hasCounterpart tag then warn (some stamp.pos) (.typeNotImplemented tag (lowerTag tag))
    return lowerTag tag
  | _ => reject .missingType none

/-! ## Variables -/

/-- Declare a variable at top level. A second declaration of a global is no error. -/
def declareGlobal (name : String) (names : Node) : LowerM Unit := do
  if (← get).module.hasFunc name then rejectAt names (.variableIsFunction name)
  if !(← get).module.hasGlobal name then
    modify fun s => { s with module := s.module.addGlobal ⟨name, .i32⟩ }
  bindSymbol name (.var (.global name .i32) none)

/-- Declare a variable in a function. -/
def declareLocal (name : String) (tag : Coded TypeTag) (ty : Ty) (func : String) : LowerM Unit := do
  let slot ← newSlot name ty (sizeOfTag tag)
  bindSymbol name (.var slot (some func))

def declareVariable (type names : Option Node) : LowerM Unit :=
  match type, names with
  | some (.leaf _ (.type tag _)), some (.leaf stamp (.names list stars)) => do
    let namesNode : Node := .leaf stamp (.names list stars)
    match Tree.singleName? list with
    | none => rejectAt namesNode .severalVariables
    | some name =>
      let ty ← lowerType type
      if ty.isVoid then rejectAt namesNode (.voidVariable name)
      if 0 < stars then warn (some stamp.pos) (.pointerIgnored name ty)
      match (← get).frame with
      | none => declareGlobal name namesNode
      | some frame => declareLocal name tag ty frame.func
  | _, _ => reject .incompleteDeclaration none

/-! ## Functions -/

/-- The parameters of function `func`, from the one at `index` on. -/
def lowerParams (func : String) (index : Nat) : List (Option Node) → LowerM (List IR.Param)
  | [] => return []
  | none :: _ => faulty .missingNode
  | some (.binary stamp .declaration type names) :: rest => do
    let n : Node := .binary stamp .declaration type names
    match names with
    | some (.leaf _ (.names list _)) =>
      match Tree.singleName? list with
      | none => rejectAt n (.parameterNames index func)
      | some name =>
        let ty ← lowerType type
        if ty.isVoid then rejectAt n (.voidParameter name)
        return ⟨name, ty⟩ :: (← lowerParams func (index + 1) rest)
    | _ => faulty .missingNode
  | some n :: _ => rejectAt n (.parameterKind index func n.kind)

/-- The members of a parameter list. -/
def paramNodes : Option Node → List (Option Node)
  | some (.seq _ .parameters items) => items
  | _ => []

/-- Whether a function has this type. -/
def sameSignature (f : Func) (ret : Ty) (params : List IR.Param) : Bool :=
  f.ret = ret && f.params.map (·.ty) = params.map (·.ty)

/-- Declare the function of a signature node, for its definition or not. The result has the
parameters under the names that the signature gives them. -/
def declareFunction (ret : Option Node) (signature : Place) (name : String) (params : Option Node)
    (forDefinition : Bool) : LowerM (List IR.Param) := do
  let ret ← lowerType ret
  let params ← lowerParams name 0 (paramNodes params)
  if (← get).module.hasGlobal name then reject (.functionIsVariable name) (some signature)
  match (← get).module.func? name with
  | none =>
    modify fun s => { s with module := s.module.addFunc ⟨name, ret, params, []⟩ }
  | some f =>
    if forDefinition && (← get).defined.contains name then
      reject (.redefinition name) (some signature)
    if !sameSignature f ret params then reject (.conflictingTypes name) (some signature)
    if forDefinition then
      let renamed := params.map fun p => { p with name := IR.Name.shown p.name }
      modify fun s =>
        { s with module := s.module.modifyFunc name fun f => { f with params := renamed } }
  bindSymbol name .func
  return params

end CSubset.Lowering
