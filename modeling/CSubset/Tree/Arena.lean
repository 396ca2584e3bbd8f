import CSubset.Tree

/-!
# Arenas

An arena owns the nodes of one tree. A node gets its identity when it is allocated: the generation
of its arena and its index there, in the order of allocation. Both are 32-bit words, so they start
again from zero after `2 ^ 32` arenas or nodes. It also gets the position that was last marked.
-/

namespace CSubset

/-- The identity of a node. -/
structure NodeId where
  generation : UInt32
  index : UInt32
  deriving DecidableEq, Repr

def NodeId.text (id : NodeId) : String := s!"{id.generation}.{id.index}"

/-- What an arena writes on a node: who it is and where it came from. -/
structure Stamp where
  id : NodeId
  pos : Pos
  deriving DecidableEq, Repr

/-- A node of an arena, with all that is below it. -/
abbrev Node := Tree Stamp

namespace Node

def id (n : Node) : NodeId := n.label.id

def pos (n : Node) : Pos := n.label.pos

end Node

structure Arena where
  generation : UInt32
  /-- The position for the nodes to come. -/
  mark : Pos
  nodes : Array Node

/-- A computation that allocates nodes. -/
abbrev Alloc := StateM Arena

namespace Arena

def empty (generation : UInt32) : Arena := ⟨generation, .unknown, #[]⟩

def size (a : Arena) : Nat := a.nodes.size

/-- The node with this identity, if this arena allocated it. -/
def node? (a : Arena) (id : NodeId) : Option Node :=
  if id.generation = a.generation then a.nodes[id.index.toNat]? else none

/-- The identity of the node in this place of the order of allocation. -/
def idAt (a : Arena) (place : Nat) : NodeId := ⟨a.generation, .ofNat place⟩

/-- The stamp of the next node. -/
def nextStamp (a : Arena) : Stamp := ⟨a.idAt a.size, a.mark⟩

def setMark (pos : Pos) : Alloc Unit := modify fun a => { a with mark := pos }

/-- Allocate a node at the last marked position. -/
def alloc (make : Stamp → Node) : Alloc Node := fun a =>
  let n := make a.nextStamp
  (n, { a with nodes := a.nodes.push n })

/-- Allocate a node at this position, which stays marked. -/
def allocAt (pos : Pos) (make : Stamp → Node) : Alloc Node := do
  setMark pos
  alloc make

/-- Put a new version of a node in this place. -/
def update (place : Nat) (n : Node) : Alloc Unit := modify fun a =>
  { a with nodes := a.nodes.setIfInBounds place n }

end Arena

end CSubset
