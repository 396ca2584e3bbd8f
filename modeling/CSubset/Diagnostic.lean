import CSubset.Tree.Arena

/-!
# Diagnostics

A diagnostic is an error as it is reported: its kind, the node it blames, the function it was found
in and a message.
-/

namespace CSubset

inductive ErrorKind where
  /-- A name that means nothing where it is used. -/
  | unresolvedName
  /-- A construct that cannot be lowered. -/
  | unsupported
  /-- A body whose blocks would not all end. -/
  | structural
  deriving DecidableEq, Repr

instance : Enumeration ErrorKind where
  label := "ErrorKind"
  members := [.unresolvedName, .unsupported, .structural]
  text
    | .unresolvedName => "unresolved name"
    | .unsupported => "unsupported"
    | .structural => "structural"

/-- The node that a diagnostic blames. -/
structure Place where
  kind : Kind
  pos : Pos
  deriving DecidableEq, Repr

def Node.place (n : Node) : Place := ⟨n.kind, n.pos⟩

structure Diagnostic where
  kind : Coded ErrorKind
  place : Option Place
  /-- The function it was found in; empty outside functions. -/
  func : String
  message : String
  deriving DecidableEq, Repr

namespace Diagnostic

/-- The text of one diagnostic: where, in which function, what kind, and the message. Unknown parts
are left out. -/
def text (d : Diagnostic) : String :=
  let position := match d.place with
    | some place => if place.pos.isKnown then s!"{place.pos.text}: " else ""
    | none => ""
  let func := if d.func.isEmpty then "" else s!"in function {d.func}: "
  s!"{position}{func}{d.kind.text}: {d.message}"

/-- The text of a list: its first member, and how many follow. -/
def summary : List Diagnostic → String
  | [] => "no errors"
  | [d] => d.text
  | d :: more => s!"{d.text} (and {more.length} more errors)"

end Diagnostic

/-- Why a whole operation failed. -/
inductive Failure where
  /-- One or more errors in the program. -/
  | diagnostics (first : Diagnostic) (more : List Diagnostic)
  /-- Anything else. -/
  | plain (message : String)
  deriving DecidableEq, Repr

namespace Failure

/-- An empty list is no failure. -/
def ofDiagnostics? : List Diagnostic → Option Failure
  | [] => none
  | d :: more => some (.diagnostics d more)

def diagnosticList : Failure → List Diagnostic
  | .diagnostics first more => first :: more
  | .plain _ => []

def text : Failure → String
  | .diagnostics first more => Diagnostic.summary (first :: more)
  | .plain message => message

/-- The lines that report a failure in a file, each beginning with the file's name. -/
def report (file : String) : Failure → List String
  | .diagnostics first more => (first :: more).map fun d => s!"{file}: {d.text}"
  | .plain message => [s!"{file}: {message}"]

end Failure

end CSubset
