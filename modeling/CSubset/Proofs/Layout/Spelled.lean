import CSubset.Proofs.Printing.Programs
import CSubset.Proofs.Tree.Outline

/-!
# Texts with given tokens

A text that has given tokens, wherever they stand in it, is read exactly if they spell a program,
and then the shape of its tree is that of the outline of the program (`parse_of_members`,
`exists_members_of_parse`).
-/

namespace CSubset

open Surface
open Surface.Phrase (Members)

/-- The tokens of the text are these, but for their positions. -/
def Spells (text : List Char) (ts : List Token) : Prop :=
  (TokenStream.ofText text).tokens.map Token.spelling = ts.map Token.spelling

instance (text : List Char) (ts : List Token) : Decidable (Spells text ts) :=
  inferInstanceAs (Decidable (_ = _))

theorem Node.shape_eq {n : Node} {t : Tree Pos} (h : n.map Stamp.pos = t) : n.shape = t.shape := by
  rw [← h, Tree.shape, Tree.shape, Tree.map_map]

theorem Surface.Program.shape_outline_relocate (program : Program) :
    (program.relocate nowhere).outline.shape = program.outline.shape := by
  have hbuild (p : Program) : ((p.build).run (.empty 0)).1.shape = p.outline.shape :=
    Node.shape_eq (p.outlined_build (.empty 0))
  rw [← hbuild, ← hbuild]
  exact (Printing.shape_build program 0).symm

section

variable {text : List Char} {ts : List Token}

theorem parse_of_members {es : List External} (h : Spells text ts) (hes : Members ts es)
    (generation : UInt32) (path : String) :
    ∃ file root, File.parse generation path text = .ok file ∧ file.root = some root ∧
      root.shape = (Program.outline ⟨.unknown, es⟩).shape := by
  have hprogram : Members ts (Program.mk .unknown es).externals := hes
  obtain ⟨program, hread, hsame⟩ := Program.ofText_of_members hprogram h.symm
  obtain ⟨file, root, hparse, hroot, houtline⟩ := File.parse_outline hread generation path
  refine ⟨file, root, hparse, hroot, ?_⟩
  rw [Node.shape_eq houtline, ← Program.shape_outline_relocate, ← hsame,
    Program.shape_outline_relocate]

theorem exists_members_of_parse {generation : UInt32} {path : String} {file : File}
    (h : Spells text ts) (hparse : File.parse generation path text = .ok file) :
    ∃ es, Members ts es := by
  obtain ⟨program, hread, -⟩ := File.program_of_parse hparse
  obtain ⟨es, hes, -⟩ := (Program.ofText_eq_ok_iff.mp hread).1.of_spelling h
  exact ⟨es, hes⟩

end

end CSubset
