import CSubset.Operator
import CSubset.Position

/-!
# Syntax trees

A syntax tree has one of twenty-two kinds of node, which differ in what they hold besides their
children. The kinds are grouped by the shape of their children (`Tree`), so that a traversal has
five cases. A child that is missing is `none`: trees also come from outside, and nothing forces
those to be complete.

The label `σ` of a node is what distinguishes the stages of a tree's life: a node of an arena is
labelled with its identity and position (`Node`), a sketch of a tree with the positions that are
given (`Sketch`).
-/

namespace CSubset

/-! ## Forms -/

/-- Nodes without children. -/
inductive Leaf where
  | intConst (value : Int32)
  /-- A string constant may hold any bytes; in a tree that was read it holds those of a text. -/
  | strConst (contents : List UInt8)
  | identifier (name : String)
  /-- A declared or used name with the stars in front of it; well-formed programs have one name. -/
  | names (names : List String) (stars : Int)
  | type (tag : Coded TypeTag) (isConst : Bool)
  deriving DecidableEq, Repr

/-- Nodes with a list of children. -/
inductive SeqForm where
  | program
  | block
  /-- The parameters of a function, or the arguments of a call. -/
  | parameters
  deriving DecidableEq, Repr

/-- Nodes with one child. -/
inductive UnaryForm where
  /-- A function's name over its parameters. -/
  | signature (name : String)
  /-- A call over its arguments. -/
  | call (callee : String)
  | ret
  deriving DecidableEq, Repr

/-- Nodes with two children. -/
inductive BinaryForm where
  | arithmetic (op : Coded ArithOp)
  | bitwise (op : Coded BitOp)
  | comparison (op : Coded CmpOp)
  | boolean (op : Coded BoolOp)
  | assign
  /-- A type over a name: a parameter. -/
  | declaration
  /-- A type over a name or a signature: a variable or a function without a body. -/
  | forward
  | ifThen
  | while
  deriving DecidableEq, Repr

/-- Nodes with three children. -/
inductive TernaryForm where
  /-- A type, a signature and a body. -/
  | definition
  | ifThenElse
  deriving DecidableEq, Repr

/-! ## Trees -/

inductive Tree (σ : Type) where
  | leaf (label : σ) (form : Leaf)
  | seq (label : σ) (form : SeqForm) (items : List (Option (Tree σ)))
  | unary (label : σ) (form : UnaryForm) (child : Option (Tree σ))
  | binary (label : σ) (form : BinaryForm) (left right : Option (Tree σ))
  | ternary (label : σ) (form : TernaryForm) (first second third : Option (Tree σ))

/-- The kinds of node, in the order of their codes. -/
inductive Kind where
  | program | block | intConst | strConst | identifier | names | type | declaration | parameters
  | signature | definition | forward | call | arithmetic | bitwise | comparison | boolean | assign
  | ret | ifThen | ifThenElse | while
  deriving DecidableEq, Repr

instance : Enumeration Kind where
  label := "Kind"
  members :=
    [.program, .block, .intConst, .strConst, .identifier, .names, .type, .declaration, .parameters,
      .signature, .definition, .forward, .call, .arithmetic, .bitwise, .comparison, .boolean,
      .assign, .ret, .ifThen, .ifThenElse, .while]
  text
    | .program => "Program"
    | .block => "Block"
    | .intConst => "IntConst"
    | .strConst => "StrConst"
    | .identifier => "Identifier"
    | .names => "IdentifierList"
    | .type => "Type"
    | .declaration => "Declaration"
    | .parameters => "ParameterList"
    | .signature => "FxnNameArg"
    | .definition => "FxnDef"
    | .forward => "FDeclaration"
    | .call => "FxnCall"
    | .arithmetic => "Arithmetic"
    | .bitwise => "Bitwise"
    | .comparison => "Comparison"
    | .boolean => "Boolean"
    | .assign => "Assign"
    | .ret => "Return"
    | .ifThen => "IfThen"
    | .ifThenElse => "IfThenElse"
    | .while => "While"

def Kind.text (k : Kind) : String := Enumeration.text k

def Leaf.kind : Leaf → Kind
  | .intConst _ => .intConst
  | .strConst _ => .strConst
  | .identifier _ => .identifier
  | .names _ _ => .names
  | .type _ _ => .type

def SeqForm.kind : SeqForm → Kind
  | .program => .program
  | .block => .block
  | .parameters => .parameters

def UnaryForm.kind : UnaryForm → Kind
  | .signature _ => .signature
  | .call _ => .call
  | .ret => .ret

def BinaryForm.kind : BinaryForm → Kind
  | .arithmetic _ => .arithmetic
  | .bitwise _ => .bitwise
  | .comparison _ => .comparison
  | .boolean _ => .boolean
  | .assign => .assign
  | .declaration => .declaration
  | .forward => .forward
  | .ifThen => .ifThen
  | .while => .while

def TernaryForm.kind : TernaryForm → Kind
  | .definition => .definition
  | .ifThenElse => .ifThenElse

namespace Tree

variable {σ τ : Type}

def label : Tree σ → σ
  | .leaf l _ => l
  | .seq l _ _ => l
  | .unary l _ _ => l
  | .binary l _ _ _ => l
  | .ternary l _ _ _ _ => l

def kind : Tree σ → Kind
  | .leaf _ f => f.kind
  | .seq _ f _ => f.kind
  | .unary _ f _ => f.kind
  | .binary _ f _ _ => f.kind
  | .ternary _ f _ _ _ => f.kind

mutual

/-- Change the labels. -/
def map (f : σ → τ) : Tree σ → Tree τ
  | .leaf l form => .leaf (f l) form
  | .seq l form items => .seq (f l) form (mapItems f items)
  | .unary l form child => .unary (f l) form (mapChild f child)
  | .binary l form left right => .binary (f l) form (mapChild f left) (mapChild f right)
  | .ternary l form first second third =>
    .ternary (f l) form (mapChild f first) (mapChild f second) (mapChild f third)

def mapChild (f : σ → τ) : Option (Tree σ) → Option (Tree τ)
  | none => none
  | some t => some (map f t)

def mapItems (f : σ → τ) : List (Option (Tree σ)) → List (Option (Tree τ))
  | [] => []
  | t :: ts => mapChild f t :: mapItems f ts

end

/-- The tree without its labels: two trees with the same shape differ in identities and positions
only. -/
def shape (t : Tree σ) : Tree Unit := t.map fun _ => ()

/-- The only name of a name list that has exactly one. -/
def singleName? : List String → Option String
  | [name] => some name
  | _ => none

end Tree

end CSubset
