import CSubset.Surface.Parser
import CSubset.Tree.Fold
import CSubset.Tree.OfSurface

/-!
# Source files

A file is a name, an arena and the root of the tree in it.
-/

namespace CSubset

structure File where
  name : String
  arena : Arena
  root : Option Node

namespace File

/-- Read a text into a new arena of the given generation. -/
def parse (generation : UInt32) (name : String) (text : List Char) :
    Except Surface.ParseError File := do
  let program ← Surface.Program.ofText text
  let (root, arena) := program.build.run (Arena.empty generation)
  return ⟨name, arena, some root⟩

/-- Build a sketch in a new arena of the given generation. -/
def ofSketch (generation : UInt32) (name : String) (sketch : Option Sketch) : File :=
  let (root, arena) := (Sketch.buildChild sketch).run (Arena.empty generation)
  ⟨name, arena, root⟩

/-- A folded copy in a new arena of the given generation. -/
def fold (generation : UInt32) (f : File) : Except FoldError File :=
  match (Node.foldChild f.root).run.run (Arena.empty generation) with
  | (.ok root, arena) => .ok ⟨f.name, arena, root⟩
  | (.error e, _) => .error e

end File

end CSubset
