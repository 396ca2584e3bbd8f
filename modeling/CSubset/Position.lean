/-!
# Positions

A place in a source text. Lines and columns count from one, in characters; a position whose line is
not positive stands for "unknown".
-/

namespace CSubset

structure Pos where
  line : Int
  col : Int
  deriving DecidableEq, Repr, Inhabited

namespace Pos

def unknown : Pos := ⟨0, 0⟩

def isKnown (p : Pos) : Bool := 0 < p.line

/-- Written `line:col`; an unknown position is a dash. -/
def text (p : Pos) : String :=
  if p.isKnown then s!"{p.line}:{p.col}" else "-"

end Pos

end CSubset
