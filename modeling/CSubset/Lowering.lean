import CSubset.IR.Printer
import CSubset.Lowering.Visit

/-!
# Lowering a program to a module

`State.lower` lowers one more program into the module of a state; `build` lowers a single one. The
module is there whether or not something was rejected: a function whose body was rejected is left as
a declaration.
-/

namespace CSubset.Lowering

open IR (Module Value)

/-- What one call leaves behind. -/
structure Outcome (α : Type) where
  result : α
  /-- The warnings of this call. -/
  warnings : List Warning
  state : State

/-- Run a step that starts without warnings. A fault has no outcome. -/
def State.run {α : Type} (s : State) (step : LowerM α) :
    Except Fault (Outcome (Except Rejection α)) :=
  match step.run.run { s with warnings := [] } with
  | (.ok a, s) => .ok ⟨.ok a, s.warnings, s⟩
  | (.error (.rejected r), s) => .ok ⟨.error r, s.warnings, s⟩
  | (.error (.fault f), _) => .error f

def State.failure? (s : State) : Option Failure :=
  Failure.ofDiagnostics? (s.rejections.map Rejection.diagnostic)

/-- Lower a program. The failure has all rejections since the start. -/
def State.lower (s : State) : Option Node → Except Fault (Outcome (Option Failure))
  | none => .ok ⟨some (.plain "irgen: nil program"), [], s⟩
  | some root => do
    let step := recording do
      let _ ← visit root
    let outcome ← s.run step
    return ⟨outcome.state.failure?, outcome.warnings, outcome.state⟩

/-- Lower a single node as it stands. A rejection is not kept for later reports. -/
def State.visit (s : State) : Option Node → Except Fault (Outcome (Except Failure (Option Value)))
  | none => .ok ⟨.error (.plain "visit of nil node"), [], s⟩
  | some n => do
    let outcome ← s.run (Lowering.visit n)
    let result := outcome.result.mapError fun r => .diagnostics r.diagnostic []
    return ⟨result, outcome.warnings, outcome.state⟩

/-- Lower a program into a new module for a source of this name. -/
def build (sourceName : String) (root : Option Node) : Except Fault (Outcome (Option Failure)) :=
  (State.start sourceName).lower root

end CSubset.Lowering
