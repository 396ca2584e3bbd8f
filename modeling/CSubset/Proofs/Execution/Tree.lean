import CSubset.Proofs.Execution.Basic

/-!
# Execution of trees

The reference execution of a program given as a tree. Expressions have a value, statements pass
control on or return from the function; both operands of an operator are evaluated, the left one
first, and an assignment yields the value that it stores.

A name stands for the latest declaration of it that precedes the use in the text of the function,
whatever the blocks they are in; if there is none, for the global variable. Declarations are
numbered in the order of the text, the parameters first, so a scope is the list of the names
declared so far. A variable comes into being when its declaration is executed, and anew each time;
using it before that has no meaning.

Loops and calls are bounded by `fuel`: an execution that ends with enough fuel ends in the same way
with more. Trees that have no meaning halt with `malformed`. Labels play no part.
-/

namespace CSubset.Execution

variable {σ : Type}

/-! ## Declarations -/

/-- The variable that a node declares. -/
def declares? : Tree σ → Option String
  | .binary _ .declaration _ (some (.leaf _ (.names names _))) => Tree.singleName? names
  | .binary _ .forward _ (some (.leaf _ (.names names _))) => Tree.singleName? names
  | _ => none

mutual

/-- Whether control can get past a statement, as far as its form tells: not past a return. -/
def passes : Tree σ → Bool
  | .seq _ .block items => passesItems items
  | .unary _ .ret _ => false
  | .ternary _ .ifThenElse _ thenBody elseBody => passesChild thenBody || passesChild elseBody
  | _ => true

def passesChild : Option (Tree σ) → Bool
  | none => true
  | some t => passes t

def passesItems : List (Option (Tree σ)) → Bool
  | [] => true
  | t :: ts => passesChild t && passesItems ts

end

mutual

/-- The variables that are declared in a statement, in the order of the text; `dead` says whether
those behind the end of their list count. -/
def declared (dead : Bool) : Tree σ → List String
  | .seq _ .block items => declaredItems dead items
  | .binary _ .ifThen _ body => declaredChild dead body
  | .binary _ .while _ body => declaredChild dead body
  | .ternary _ .ifThenElse _ thenBody elseBody =>
    declaredChild dead thenBody ++ declaredChild dead elseBody
  | t => (declares? t).toList

def declaredChild (dead : Bool) : Option (Tree σ) → List String
  | none => []
  | some t => declared dead t

def declaredItems (dead : Bool) : List (Option (Tree σ)) → List String
  | [] => []
  | t :: ts => declaredChild dead t ++ if passesChild t || dead then declaredItems dead ts else []

end

/-- The names declared so far, latest first. -/
abbrev Scope := List String

/-- The number of the latest declaration of a name. -/
def Scope.index? : Scope → String → Option Nat
  | [], _ => none
  | x :: older, name => if x = name then some older.length else Scope.index? older name

/-- The scope after a statement with these declarations. -/
def Scope.add (scope : Scope) (names : List String) : Scope := names.reverse ++ scope

/-! ## States -/

/-- Why an execution has no result. -/
inductive Halt where
  /-- It has not ended yet. -/
  | outOfFuel
  /-- A name without a variable. -/
  | undeclared (name : String)
  /-- A variable whose declaration has not been executed. -/
  | dormant (index : Nat)
  /-- A variable that holds nothing yet. -/
  | unset (index : Nat)
  /-- An operator that has no value for its operands. -/
  | noResult
  /-- An operand without a value. -/
  | noValue
  /-- A call with the wrong number of arguments. -/
  | arity (callee : String)
  /-- A function without a body that does not return. -/
  | noReturn (callee : String)
  /-- A tree without a meaning. -/
  | malformed
  deriving DecidableEq, Repr

/-- The world, and for each declaration of the running function what its variable holds: nothing at
all before the declaration is executed, and possibly no value after it. -/
structure Store where
  world : World
  locals : Nat → Option (Option Int32)

abbrev ExecM := ExceptT Halt (StateM Store)

/-- How a statement ends. -/
inductive Flow where
  | next
  | returned (value : Option Int32)
  deriving DecidableEq, Repr

/-- What the execution of a function depends on. -/
structure Setting where
  conv : Convention
  isGlobal : String → Bool
  /-- What a call of a function does. -/
  call : String → List Int32 → World → Except Halt (Option Int32) × World
  /-- How often a loop may test its condition. -/
  rounds : Nat

/-! ## Variables -/

inductive Place where
  | var (index : Nat)
  | global (name : String)
  deriving DecidableEq, Repr

def place (S : Setting) (scope : Scope) (names : List String) : ExecM Place :=
  match Tree.singleName? names with
  | none => throw .malformed
  | some name =>
    match scope.index? name with
    | some i => return .var i
    | none => if S.isGlobal name then return .global name else throw (.undeclared name)

def read : Place → ExecM Int32
  | .global name => return (← get).world.globals name
  | .var i => do
    match (← get).locals i with
    | some (some v) => return v
    | some none => throw (.unset i)
    | none => throw (.dormant i)

/-- Give the variable of a declaration new contents. -/
def Store.setLocal (s : Store) (i : Nat) (contents : Option Int32) : Store :=
  { s with locals := fun j => if j = i then some contents else s.locals j }

def write (v : Int32) : Place → ExecM Unit
  | .global name => modify fun s => { s with world := s.world.setGlobal name v }
  | .var i => do
    match (← get).locals i with
    | some _ => modify fun s => s.setLocal i (some v)
    | none => throw (.dormant i)

/-- Call a function. -/
def invoke (S : Setting) (callee : String) (args : List Int32) : ExecM (Option Int32) := fun s =>
  let (result, world) := S.call callee args s.world
  (result, { s with world })

/-- The value that an operand has to have. -/
def require : Option Int32 → ExecM Int32
  | some v => return v
  | none => throw .noValue

/-! ## Expressions -/

/-- Apply the operation of a form to two operands. -/
def combine (S : Setting) (form : BinaryForm) (left right : ExecM Int32) : ExecM (Option Int32) :=
  match form.operation? S.conv with
  | none => throw .malformed
  | some operation => do
    let x ← left
    let y ← right
    match operation x y with
    | some v => return some v
    | none => throw .noResult

mutual

/-- The value of an expression; a call need not have one. -/
def eval (S : Setting) (scope : Scope) : Tree σ → ExecM (Option Int32)
  | .leaf _ (.intConst value) => return some value
  | .leaf _ (.names names _) => do return some (← read (← place S scope names))
  | .unary _ (.call callee) args => do invoke S callee (← evalArgs S scope args)
  | .binary _ .assign (some (.leaf _ (.names names _))) value => do
    let target ← place S scope names
    let v ← evalOperand S scope value
    write v target
    return some v
  | .binary _ form left right =>
    combine S form (evalOperand S scope left) (evalOperand S scope right)
  | _ => throw .malformed

def evalOperand (S : Setting) (scope : Scope) : Option (Tree σ) → ExecM Int32
  | none => throw .malformed
  | some t => do require (← eval S scope t)

def evalArgs (S : Setting) (scope : Scope) : Option (Tree σ) → ExecM (List Int32)
  | some (.seq _ .parameters items) => evalOperands S scope items
  | _ => return []

def evalOperands (S : Setting) (scope : Scope) : List (Option (Tree σ)) → ExecM (List Int32)
  | [] => return []
  | t :: ts => do
    let v ← evalOperand S scope t
    let vs ← evalOperands S scope ts
    return v :: vs

end

/-! ## Statements -/

/-- Execute the declaration that comes next in the text after those of `scope`. -/
def execDeclaration (S : Setting) (scope : Scope) (t : Tree σ) : ExecM Flow :=
  match declares? t with
  | none => throw .malformed
  | some _ => do
    modify fun s => s.setLocal scope.length S.conv.fresh
    return .next

/-- Test the condition and run the body until the condition is zero or the body returns. -/
def loop (cond : ExecM Int32) (body : ExecM Flow) : Nat → ExecM Flow
  | 0 => throw .outOfFuel
  | rounds + 1 => do
    if (← cond) = 0 then return .next
    else
      match ← body with
      | .next => loop cond body rounds
      | .returned v => return .returned v

mutual

def exec (S : Setting) (scope : Scope) : Tree σ → ExecM Flow
  | .seq _ .block items => execItems S scope items
  | .unary _ .ret none => return .returned none
  | .unary _ .ret (some value) => do return .returned (some (← evalOperand S scope (some value)))
  | .binary _ .ifThen cond body => do
    if (← evalOperand S scope cond) = 0 then return .next else execChild S scope body
  | .binary _ .while cond body => loop (evalOperand S scope cond) (execChild S scope body) S.rounds
  | .ternary _ .ifThenElse cond thenBody elseBody => do
    if (← evalOperand S scope cond) = 0 then
      execChild S (scope.add (declaredChild S.conv.deadDeclares thenBody)) elseBody
    else execChild S scope thenBody
  | .binary l .declaration type names => execDeclaration S scope (.binary l .declaration type names)
  | .binary l .forward type names => execDeclaration S scope (.binary l .forward type names)
  | t => do
    let _ ← eval S scope t
    return .next

def execChild (S : Setting) (scope : Scope) : Option (Tree σ) → ExecM Flow
  | none => return .next
  | some t => exec S scope t

def execItems (S : Setting) (scope : Scope) : List (Option (Tree σ)) → ExecM Flow
  | [] => return .next
  | t :: ts => do
    match ← execChild S scope t with
    | .next => execItems S (scope.add (declaredChild S.conv.deadDeclares t)) ts
    | .returned v => return .returned v

end

/-! ## Programs -/

/-- A function with a body: the names of its parameters and its statements. -/
structure Definition (σ : Type) where
  params : List String
  body : List (Option (Tree σ))

/-- The members of a list node of this form. -/
def members (form : SeqForm) : Option (Tree σ) → List (Option (Tree σ))
  | some (.seq _ f items) => if f = form then items else []
  | _ => []

def paramName? : Option (Tree σ) → Option String
  | some (.binary _ .declaration _ (some (.leaf _ (.names names _)))) => Tree.singleName? names
  | _ => none

/-- The definition of function `name` that a node is. -/
def Definition.ofTree? (name : String) : Tree σ → Option (Definition σ)
  | .ternary _ .definition _ (some (.unary _ (.signature f) params)) (some body) =>
    if f = name then
      ((members .parameters params).mapM paramName?).map fun params =>
        ⟨params, members .block (some body)⟩
    else none
  | _ => none

/-- The top level of a program. -/
abbrev TopLevel (σ : Type) := List (Option (Tree σ))

/-- The first definition of a function. -/
def TopLevel.definition? (program : TopLevel σ) (name : String) : Option (Definition σ) :=
  program.findSome? fun t => t.bind (Definition.ofTree? name)

def TopLevel.isGlobal (program : TopLevel σ) (name : String) : Bool :=
  program.any fun t => t.bind declares? = some name

/-- Execute the body of a function on arguments. -/
def Definition.execute (S : Setting) (name : String) (d : Definition σ) (args : List Int32)
    (w : World) : Except Halt (Option Int32) × World :=
  if args.length = d.params.length then
    match (execItems S (Scope.add [] d.params) d.body).run.run ⟨w, fun i => args[i]?.map some⟩ with
    | (.ok (.returned v), s) => (.ok v, s.world)
    | (.ok .next, s) => (.ok none, s.world)
    | (.error h, s) => (.error h, s.world)
  else (.error (.arity name), w)

/-- Call a function of a program. One without a body is called outside. -/
def TopLevel.run (program : TopLevel σ) (conv : Convention) (outside : Outside) :
    Nat → String → List Int32 → World → Except Halt (Option Int32) × World
  | fuel, name, args, w =>
    match program.definition? name, fuel with
    | none, _ =>
      match outside.call name args w with
      | some (v, w') => (.ok v, w')
      | none => (.error (.noReturn name), w)
    | some _, 0 => (.error .outOfFuel, w)
    | some d, fuel + 1 =>
      d.execute ⟨conv, program.isGlobal, run program conv outside fuel, fuel⟩ name args w

/-- The top level of the tree with this root. -/
def TopLevel.ofRoot (root : Option (Tree σ)) : TopLevel σ := members .program root

end CSubset.Execution
