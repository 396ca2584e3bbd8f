import CSubset.Tree.File

/-!
# Forests

Several arenas side by side, each of its own generation. A node can be given another node as a
further child after both were allocated, and can so become part of several trees; every tree that a
node is part of shows such a change.
-/

namespace CSubset

namespace Node

def modifyRoot (target : NodeId) (change : Node → Node) (n : Node) : Node :=
  if n.id = target then change n else n

mutual

/-- Apply `change` to the nodes with this identity, below others first. -/
def modify (target : NodeId) (change : Node → Node) : Node → Node
  | .leaf stamp form => modifyRoot target change (.leaf stamp form)
  | .seq stamp form items =>
    modifyRoot target change (.seq stamp form (modifyItems target change items))
  | .unary stamp form child =>
    modifyRoot target change (.unary stamp form (modifyChild target change child))
  | .binary stamp form left right =>
    modifyRoot target change
      (.binary stamp form (modifyChild target change left) (modifyChild target change right))
  | .ternary stamp form first second third =>
    modifyRoot target change
      (.ternary stamp form (modifyChild target change first) (modifyChild target change second)
        (modifyChild target change third))

def modifyChild (target : NodeId) (change : Node → Node) : Option Node → Option Node
  | none => none
  | some n => some (modify target change n)

def modifyItems (target : NodeId) (change : Node → Node) : List (Option Node) → List (Option Node)
  | [] => []
  | n :: ns => modifyChild target change n :: modifyItems target change ns

end

/-- The node with a further child, if it is a list. -/
def addItem (item : Option Node) : Node → Node
  | .seq stamp form items => .seq stamp form (items ++ [item])
  | n => n

/-- The node with a further name, if it is a name list. -/
def addName (name : String) : Node → Node
  | .leaf stamp (.names names stars) => .leaf stamp (.names (names ++ [name]) stars)
  | n => n

/-- The number of children of a list, or of names of a name list. -/
def count : Node → Nat
  | .seq _ _ items => items.length
  | .leaf _ (.names names _) => names.length
  | _ => 0

/-- The only name of a name list that has exactly one. -/
def name? : Node → Option String
  | .leaf _ (.names names _) => Tree.singleName? names
  | _ => none

end Node

structure Forest where
  /-- How many generations are used up. -/
  next : Nat
  /-- The arenas, each of a generation of its own. -/
  arenas : List Arena

namespace Forest

def empty : Forest := ⟨0, []⟩

/-- The generation of the next arena. -/
def generation (f : Forest) : UInt32 := .ofNat f.next

def arena? (f : Forest) (generation : UInt32) : Option Arena :=
  f.arenas.find? (·.generation == generation)

def node? (f : Forest) (id : NodeId) : Option Node := do
  let a ← f.arena? id.generation
  a.node? id

/-- Add an empty arena. -/
def newArena (f : Forest) : Forest := ⟨f.next + 1, f.arenas ++ [Arena.empty f.generation]⟩

/-- Read a text into a new arena. A text that cannot be read uses a generation up all the same. -/
def parse (f : Forest) (text : List Char) : Except Surface.ParseError File × Forest :=
  match File.parse f.generation "" text with
  | .ok file => (.ok file, ⟨f.next + 1, f.arenas ++ [file.arena]⟩)
  | .error e => (.error e, ⟨f.next + 1, f.arenas⟩)

/-- Fold a file into a new arena. A file that cannot be folded uses a generation up all the same. -/
def fold (f : Forest) (file : File) : Except FoldError File × Forest :=
  match file.fold f.generation with
  | .ok folded => (.ok folded, ⟨f.next + 1, f.arenas ++ [folded.arena]⟩)
  | .error e => (.error e, ⟨f.next + 1, f.arenas⟩)

/-- Allocate in the arena of this generation. -/
def within {α : Type} (f : Forest) (generation : UInt32) (step : Alloc α) :
    Option (α × Forest) := do
  let (a, arena) := step.run (← f.arena? generation)
  return (a, { f with
    arenas := f.arenas.map fun old => if old.generation = generation then arena else old })

/-- Change a node wherever it stands. -/
def modify (f : Forest) (target : NodeId) (change : Node → Node) : Forest :=
  { f with
    arenas := f.arenas.map fun a => { a with nodes := a.nodes.map (Node.modify target change) } }

end Forest

end CSubset
