import CSubset.Tree.Arena

/-!
# Sketches and copies

A sketch is a tree with no identities yet, in which some nodes have a position. Building it
allocates the children of a node before the node, from left to right; a node without a position of
its own gets the one that was marked last. A copy of a tree is built from the sketch that has all
its positions.
-/

namespace CSubset

abbrev Sketch := Tree (Option Pos)

namespace Sketch

/-- Allocate a node at the given position, or at the last marked one. -/
def place (pos : Option Pos) (make : Stamp → Node) : Alloc Node :=
  match pos with
  | some pos => Arena.allocAt pos make
  | none => Arena.alloc make

mutual

def build : Sketch → Alloc Node
  | .leaf pos form => place pos (.leaf · form)
  | .seq pos form items => do
    let items ← buildItems items
    place pos (.seq · form items)
  | .unary pos form child => do
    let child ← buildChild child
    place pos (.unary · form child)
  | .binary pos form left right => do
    let left ← buildChild left
    let right ← buildChild right
    place pos (.binary · form left right)
  | .ternary pos form first second third => do
    let first ← buildChild first
    let second ← buildChild second
    let third ← buildChild third
    place pos (.ternary · form first second third)

def buildChild : Option Sketch → Alloc (Option Node)
  | none => return none
  | some t => return some (← build t)

def buildItems : List (Option Sketch) → Alloc (List (Option Node))
  | [] => return []
  | t :: ts => do
    let n ← buildChild t
    let ns ← buildItems ts
    return n :: ns

end

end Sketch

/-- The positions of a tree without its identities. -/
def Node.sketch (n : Node) : Sketch := n.map fun stamp => some stamp.pos

/-- A deep copy in another arena. -/
def Node.copy (n : Node) : Alloc Node := n.sketch.build

end CSubset
