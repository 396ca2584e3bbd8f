import CSubset.Proofs.Execution.Tree
import CSubset.Proofs.Tree.Induction

/-!
# Variables that are in force

A name stands for the latest declaration before it in the text, whatever the blocks the two are in.
A declaration is in force as long as control cannot get around it: up to the end of the branch or of
the loop that it stands in. A statement is well scoped (`inForce`) if every variable that it reads
or writes is in force there; what stands behind a return does not count.

An expression statement that is only a name neither reads nor writes.
-/

namespace CSubset.Scoping

open Execution (declares? declaredChild passesChild)

variable {σ : Type}

/-- The variables declared so far, latest first, and whether each is in force. -/
abbrev Env := List (String × Bool)

/-- Whether the name stands for a variable in force, or for none that is declared here. -/
def Env.permits (env : Env) (names : List String) : Bool :=
  match Tree.singleName? names with
  | some x => env.lookup x ≠ some false
  | none => true

/-- More declarations, in the order of the text. -/
def Env.add (env entries : Env) : Env := entries.reverse ++ env

/-- Variables that are not in force. -/
def lapsed (names : List String) : Env := names.map (·, false)

mutual

/-- The variables that a statement declares, in the order of the text, and whether each is in force
behind it. -/
def entries : Tree σ → Env
  | .seq _ .block items => entriesItems items
  | .binary _ .ifThen _ body => lapsed (declaredChild false body)
  | .binary _ .while _ body => lapsed (declaredChild false body)
  | .ternary _ .ifThenElse _ thenBody elseBody =>
    lapsed (declaredChild false thenBody ++ declaredChild false elseBody)
  | t => (declares? t).toList.map (·, true)

def entriesChild : Option (Tree σ) → Env
  | none => []
  | some t => entries t

def entriesItems : List (Option (Tree σ)) → Env
  | [] => []
  | t :: ts => entriesChild t ++ if passesChild t then entriesItems ts else []

end

/-- The entries are for the declarations. -/
theorem map_fst_entries (t : Tree σ) : (entries t).map Prod.fst = Execution.declared false t := by
  have hlapsed : ∀ names : List String, (lapsed names).map Prod.fst = names := by
    intro names
    simp [lapsed, Function.comp_def]
  induction t using Tree.ind with
  | leaf l form => rfl
  | seq l form items ih =>
    cases form with
    | block =>
      show (entriesItems items).map Prod.fst = Execution.declaredItems false items
      induction items with
      | nil => rfl
      | cons t ts ihts =>
        have hfirst : (entriesChild t).map Prod.fst = declaredChild false t := by
          cases t with
          | none => rfl
          | some t => exact ih t List.mem_cons_self
        have hrest := ihts fun u hu => ih u (List.mem_cons_of_mem _ hu)
        rw [entriesItems, Execution.declaredItems, List.map_append, hfirst]
        -- behind a statement that does not let control pass nothing is declared
        cases passesChild t with
        | true => simpa using hrest
        | false => rfl
    | program => rfl
    | parameters => rfl
  | unary l form child _ _ => rfl
  | binary l form left right _ _ =>
    have hdeclares : ∀ name : Option String, (name.toList.map (·, true)).map Prod.fst =
        name.toList := by
      intro name
      cases name <;> rfl
    cases form with
    | ifThen => exact hlapsed _
    | «while» => exact hlapsed _
    | _ => exact hdeclares _
  | ternary l form first second third _ _ _ =>
    cases form with
    | ifThenElse => exact hlapsed _
    | definition => rfl

theorem map_fst_entriesChild (t : Option (Tree σ)) :
    (entriesChild t).map Prod.fst = declaredChild false t := by
  cases t with
  | none => rfl
  | some t => exact map_fst_entries t

mutual

/-- Whether every variable that a statement or an expression uses is in force where it is used. -/
def inForce (env : Env) : Tree σ → Bool
  | .seq _ .block items => itemsInForce env items
  | .unary _ (.call _) args => argsInForce env args
  | .unary _ .ret value => operandInForce env value
  | .binary _ .declaration _ _ => true
  | .binary _ .forward _ _ => true
  | .binary _ .ifThen cond body => operandInForce env cond && childInForce env body
  | .binary _ .while cond body => operandInForce env cond && childInForce env body
  | .binary _ _ left right => operandInForce env left && operandInForce env right
  | .ternary _ .ifThenElse cond thenBody elseBody =>
    operandInForce env cond && childInForce env thenBody &&
      childInForce (env.add (lapsed (declaredChild false thenBody))) elseBody
  | _ => true

/-- An operand is read, also if it is only a name. -/
def operandInForce (env : Env) : Option (Tree σ) → Bool
  | none => true
  | some (.leaf _ (.names names _)) => env.permits names
  | some t => inForce env t

def argsInForce (env : Env) : Option (Tree σ) → Bool
  | some (.seq _ .parameters items) => operandsInForce env items
  | _ => true

def operandsInForce (env : Env) : List (Option (Tree σ)) → Bool
  | [] => true
  | t :: ts => operandInForce env t && operandsInForce env ts

def childInForce (env : Env) : Option (Tree σ) → Bool
  | none => true
  | some t => inForce env t

def itemsInForce (env : Env) : List (Option (Tree σ)) → Bool
  | [] => true
  | t :: ts => childInForce env t && (!passesChild t || itemsInForce (env.add (entriesChild t)) ts)

end

/-- Whether a function is well scoped. Its parameters are in force everywhere. -/
def definitionInForce (d : Execution.Definition σ) : Bool :=
  itemsInForce (Env.add [] (d.params.map (·, true))) d.body

end CSubset.Scoping
