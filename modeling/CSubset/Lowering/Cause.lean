import CSubset.Diagnostic
import CSubset.IR.Flow
import CSubset.IR.Name
import CSubset.IR.Type
import CSubset.Text.Quoted

/-!
# Why a tree is not lowered

Each reason to reject a construct is a cause of its own, with the kind of error that it is and its
wording in one place. A warning does not stop lowering. A fault is no property of the program that
is lowered: it means that a step was asked for in a state where it has no meaning.
-/

namespace CSubset.Lowering

open IR (Ty)

inductive Cause where
  -- names
  | undeclaredVariable (name : String)
  | foreignVariable (name owner : String)
  | undeclaredFunction (name : String)
  | functionAsValue (name : String)
  | nameCount (count : Nat)
  | bareIdentifier (name : String)
  -- top level
  | nestedProgram
  | atTopLevel (kind : Kind)
  -- declarations
  | missingType
  | untypedDeclaration
  | incompleteDeclaration
  | severalVariables
  | voidVariable (name : String)
  | variableIsFunction (name : String)
  | cannotDeclare (kind : Kind)
  -- functions
  | nestedDefinition
  | incompleteDefinition
  | nestedPrototype
  | parameterKind (index : Nat) (func : String) (kind : Kind)
  | parameterNames (index : Nat) (func : String)
  | voidParameter (name : String)
  | functionIsVariable (name : String)
  | redefinition (name : String)
  | conflictingTypes (name : String)
  -- statements
  | blockOutsideFunction
  | returnWithoutValue (ret : Ty)
  | returnWithValue
  -- values
  | typeAsValue (tag : Coded TypeTag)
  | parametersAsValue
  | signatureAsValue (name : String)
  | missingOperand
  | noValue (kind : Kind)
  | voidValue
  | cannotConvert (source target : Ty)
  | stringConstant (contents : List UInt8)
  | arithmeticOperator (op : Coded ArithOp)
  | bitwiseOperator (op : Coded BitOp)
  | comparisonOperator (op : Coded CmpOp)
  | booleanOperator (op : Coded BoolOp)
  | shiftNotConstant
  | shiftOutOfRange (amount : Int32)
  | notAssignable (kind : Option Kind)
  -- control flow
  | fallsOffEnd (func : String)
  | openBranch (arm : String)
  | flow (defect : IR.Flow.Defect String)
  deriving DecidableEq, Repr

namespace Cause

def kind : Cause → ErrorKind
  | .undeclaredVariable _ | .foreignVariable _ _ | .undeclaredFunction _ => .unresolvedName
  | .fallsOffEnd _ | .openBranch _ | .flow _ => .structural
  | _ => .unsupported

def message : Cause → String
  | .undeclaredVariable name => s!"variable {name} used before it is declared"
  | .foreignVariable name owner => s!"variable {name} belongs to function {IR.Name.shown owner}"
  | .undeclaredFunction name => s!"function {name} called without being declared or defined"
  | .functionAsValue name => s!"function {name} used as a value"
  | .nameCount count => s!"expected one name, found {count}"
  | .bareIdentifier name => s!"identifier {name} used outside a declarator"
  | .nestedProgram => "program nested in function"
  | .atTopLevel kind => s!"{kind.text} at top level"
  | .missingType => "missing type"
  | .untypedDeclaration => "declaration without a type"
  | .incompleteDeclaration => "incomplete declaration"
  | .severalVariables => "declaration must name exactly one variable"
  | .voidVariable name => s!"variable {name} declared void"
  | .variableIsFunction name => s!"{name} redeclared as a variable"
  | .cannotDeclare kind => s!"cannot declare a {kind.text}"
  | .nestedDefinition => "nested function definition"
  | .incompleteDefinition => "function definition without name or body"
  | .nestedPrototype => "function declaration inside a function"
  | .parameterKind index func kind => s!"parameter {index} of {func} is a {kind.text}"
  | .parameterNames index func => s!"parameter {index} of {func} must declare exactly one name"
  | .voidParameter name => s!"parameter {name} declared void"
  | .functionIsVariable name => s!"{name} redeclared as a function"
  | .redefinition name => s!"redefinition of {name}"
  | .conflictingTypes name => s!"conflicting types for {name}"
  | .blockOutsideFunction => "block outside a function"
  | .returnWithoutValue ret => s!"return without a value in function returning {ret.text}"
  | .returnWithValue => "return with a value in void function"
  | .typeAsValue tag => s!"type {tag.text} used as a value"
  | .parametersAsValue => "parameter list used as a value"
  | .signatureAsValue name => s!"function name {name} used as a value"
  | .missingOperand => "missing operand"
  | .noValue kind => s!"{kind.text} does not produce a value"
  | .voidValue => "void value used in an expression"
  | .cannotConvert source target => s!"cannot convert {source.text} to {target.text}"
  | .stringConstant contents =>
    s!"string constant {Text.Quoted.quoteBytes contents} cannot be lowered"
  | .arithmeticOperator op => s!"arithmetic operator {op.text}"
  | .bitwiseOperator op => s!"bitwise operator {op.text}"
  | .comparisonOperator op => s!"comparison operator {op.text}"
  | .booleanOperator op => s!"boolean operator {op.text}"
  | .shiftNotConstant => "shift amount must be an integer constant"
  | .shiftOutOfRange amount => s!"shift amount {amount.toInt} out of range"
  | .notAssignable (some kind) => s!"cannot assign to {kind.text}"
  | .notAssignable none => "cannot assign to nothing"
  | .fallsOffEnd func => s!"control reaches end of non-void function {IR.Name.shown func}"
  | .openBranch arm => s!"{arm} branch of if/else does not end in a return"
  | .flow (.openBlock label) => s!"block {IR.Name.shown label} has no terminator"
  | .flow (.unreachable label) => s!"block {IR.Name.shown label} is unreachable"

end Cause

/-- A cause, the node to blame and the function in which it was found. -/
structure Rejection where
  cause : Cause
  place : Option Place
  func : String
  deriving DecidableEq, Repr

def Rejection.diagnostic (r : Rejection) : Diagnostic :=
  ⟨.known r.cause.kind, r.place, r.func, r.cause.message⟩

inductive WarningCause where
  | typeNotImplemented (tag : Coded TypeTag) (used : Ty)
  | pointerIgnored (name : String) (used : Ty)
  | unreachableCode
  deriving DecidableEq, Repr

structure Warning where
  pos : Option Pos
  cause : WarningCause
  deriving DecidableEq, Repr

def WarningCause.message : WarningCause → String
  | .typeNotImplemented tag used =>
    s!"type {tag.text} is not implemented, treating it as {used.text}"
  | .pointerIgnored name used =>
    s!"pointer declarator on {name} ignored, treating it as {used.text}"
  | .unreachableCode => "unreachable code skipped"

def Warning.text (w : Warning) : String :=
  match w.pos with
  | some pos => s!"{pos.text}: warning: {w.cause.message}"
  | none => s!"warning: {w.cause.message}"

inductive Fault where
  /-- A child that every tree of this form has is missing. -/
  | missingNode
  /-- Code outside a function. -/
  | noFunction
  /-- Code where no block is being filled. -/
  | noBlock
  /-- Code after the end of a block. -/
  | closedBlock
  deriving DecidableEq, Repr

end CSubset.Lowering
