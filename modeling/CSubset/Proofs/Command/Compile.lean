import CSubset.Command.Compile
import CSubset.Proofs.Command.Files
import CSubset.Proofs.Tree.Parsed

/-!
# What a run of the compiler leaves behind

A run succeeds if its source can be read, both modules are made without a complaint and both can be
written (`Succeeds`). The exit code says so, and then the two files hold the two modules. A run that
does not succeed may have written them as well; in no case does it touch another file.

An output is the file that its path leads to in the end, whatever links are on the way. If links
make one file of both outputs, it holds what was written last.
-/

namespace CSubset.Command.Compile

open IR (Module)
open FileTree (Spares)

variable {m m' : Module}

/-- The arguments name a source that can be read into the file. -/
structure Reads (args : List String) (t : FileTree) (o : Options) (f : File) : Prop where
  options : Options.parse args = .ok o
  source : ∃ bytes, (FileTree.read o.source).run t = (.ok bytes, t) ∧
    File.parse 0 o.source (Text.Utf8.decode bytes) = .ok f

/-- Lowering the tree reports no error and makes this module. -/
def LowersTo (source : String) (root : Option Node) (m : Module) : Prop :=
  ∃ outcome, Lowering.build (Path.base source) root = .ok outcome ∧ outcome.result = none ∧
    outcome.state.module = m

/-- All goes well, from `t` to `t'`. -/
def Succeeds (args : List String) (t : FileTree) (o : Options) (raw folded : Module)
    (t' : FileTree) : Prop :=
  ∃ f f' t₁ t₂, Reads args t o f ∧ (FileTree.makeDirs o.outDir).run t = (.ok (), t₁) ∧
    f.fold (f.arena.generation + 1) = .ok f' ∧ LowersTo o.source f.root raw ∧
    LowersTo o.source f'.root folded ∧
    (FileTree.write (Path.within o.outDir rawName) raw.text).run t₁ = (.ok (), t₂) ∧
    (FileTree.write (Path.within o.outDir foldedName) folded.text).run t₂ = (.ok (), t')

theorem LowersTo.unique {source : String} {root : Option Node}
    (h : LowersTo source root m) (h' : LowersTo source root m') : m = m' := by
  obtain ⟨outcome, hbuild, -, rfl⟩ := h
  obtain ⟨outcome', hbuild', -, rfl⟩ := h'
  rw [Except.ok.inj (hbuild.symm.trans hbuild')]

/-! ## Writing one module -/

/-- The module of the file is made without a complaint and written. -/
def Writes (f : File) (path : String) (t : FileTree) (m : Module) (t' : FileTree) : Prop :=
  LowersTo f.name f.root m ∧ (FileTree.write path m.text).run t = (.ok (), t')

variable {f : File} {path text : String} {t t' : FileTree}

theorem Writes.unique {t'' : FileTree} (h : Writes f path t m t')
    (h' : Writes f path t m' t'') : m = m' ∧ t' = t'' := by
  obtain rfl := h.1.unique h'.1
  exact ⟨rfl, (Prod.mk.inj (h.2.symm.trans h'.2)).2⟩

variable {o : Options}

/-- Both modules are made without a complaint and written. -/
def WritesBoth (o : Options) (f : File) (t : FileTree) (raw folded : Module) (t' : FileTree) :
    Prop :=
  ∃ f' t₁, f.fold (f.arena.generation + 1) = .ok f' ∧
    Writes f (Path.within o.outDir rawName) t raw t₁ ∧
    Writes f' (Path.within o.outDir foldedName) t₁ folded t'

section Runs

variable {args : List String} {raw folded : Module} {f' : File} {o' : Options}

theorem Reads.unique (h : Reads args t o f) (h' : Reads args t o' f') : o = o' ∧ f = f' := by
  obtain ⟨hoptions, bytes, hread, hfile⟩ := h
  obtain ⟨hoptions', bytes', hread', hfile'⟩ := h'
  obtain rfl := Except.ok.inj (hoptions.symm.trans hoptions')
  obtain ⟨⟨⟩, -⟩ := Prod.mk.inj (hread.symm.trans hread')
  exact ⟨rfl, Except.ok.inj (hfile.symm.trans hfile')⟩

theorem name_fold {generation : UInt32} (h : f.fold generation = .ok f') : f'.name = f.name := by
  unfold File.fold at h
  split at h
  · rw [← Except.ok.inj h]
  · cases h

/-- Success is success in writing, after what comes before it. -/
theorem succeeds_iff :
    Succeeds args t o raw folded t' ↔
      ∃ f t₁, Reads args t o f ∧ (FileTree.makeDirs o.outDir).run t = (.ok (), t₁) ∧
        WritesBoth o f t₁ raw folded t' := by
  have hnames {f f' : File} (hreads : Reads args t o f)
      (hfold : f.fold (f.arena.generation + 1) = .ok f') : f.name = o.source ∧
      f'.name = o.source := by
    obtain ⟨bytes, -, hfile⟩ := hreads.source
    obtain ⟨program, -, rfl⟩ := File.parse_eq_ok_iff.mp hfile
    exact ⟨rfl, name_fold hfold⟩
  constructor
  · rintro ⟨f, f', t₁, t₂, hreads, hdirs, hfold, hraw, hfolded, hwrite, hwrite'⟩
    obtain ⟨hname, hname'⟩ := hnames hreads hfold
    exact ⟨f, t₁, hreads, hdirs, f', t₂, hfold, ⟨hname ▸ hraw, hwrite⟩, ⟨hname' ▸ hfolded, hwrite'⟩⟩
  · rintro ⟨f, t₁, hreads, hdirs, f', t₂, hfold, ⟨hraw, hwrite⟩, hfolded, hwrite'⟩
    obtain ⟨hname, hname'⟩ := hnames hreads hfold
    exact ⟨f, f', t₁, t₂, hreads, hdirs, hfold, hname ▸ hraw, hname' ▸ hfolded, hwrite, hwrite'⟩

theorem Succeeds.unique {raw' folded' : Module} {t'' : FileTree}
    (h : Succeeds args t o raw folded t') (h' : Succeeds args t o' raw' folded' t'') :
    o = o' ∧ folded = folded' ∧ t' = t'' := by
  obtain ⟨f, t₁, hreads, hmake, g, t₂, hfold, hraw, hfolded⟩ := succeeds_iff.mp h
  obtain ⟨f', t₁', hreads', hmake', g', t₂', hfold', hraw', hfolded'⟩ := succeeds_iff.mp h'
  obtain ⟨rfl, rfl⟩ := hreads.unique hreads'
  obtain ⟨-, rfl⟩ := Prod.mk.inj (hmake.symm.trans hmake')
  obtain rfl := Except.ok.inj (hfold.symm.trans hfold')
  obtain ⟨-, rfl⟩ := hraw.unique hraw'
  obtain ⟨rfl, rfl⟩ := hfolded.unique hfolded'
  exact ⟨rfl, rfl, rfl⟩

theorem isName_rawName : Path.IsName rawName := ⟨⟨by decide, by decide, by decide⟩, by decide⟩

theorem isName_foldedName : Path.IsName foldedName := ⟨⟨by decide, by decide, by decide⟩, by decide⟩

/-- Where the two modules are after they were written: in the files `i` and `j`. If these are two
files, each holds its own module. -/
structure Holds (o : Options) (t : FileTree) (raw folded : Module) (i j : Nat) : Prop where
  rawFile : t.file? (Path.within o.outDir rawName) = some i
  foldedFile : t.file? (Path.within o.outDir foldedName) = some j
  rawBytes : i ≠ j → t.bytes i = raw.text.toUTF8.toList
  foldedBytes : t.bytes j = folded.text.toUTF8.toList

/-- What is written is there. The second module replaces the first one only if both go into one
file. -/
theorem WritesBoth.holds (h : WritesBoth o f t raw folded t') :
    ∃ i j, Holds o t' raw folded i j := by
  obtain ⟨f', t₁, -, ⟨-, hraw⟩, -, hfolded⟩ := h
  obtain ⟨i, hi, hbytes, -⟩ := FileTree.write_ok hraw
  obtain ⟨j, hj, hbytes', hspares⟩ := FileTree.write_ok hfolded
  exact ⟨i, j, hspares.file? hi, hj, fun hne => (hspares.bytes i hne).trans hbytes, hbytes'⟩

/-- Without links the files are where the output directory leads, and then their names. -/
theorem Holds.location {i j : Nat} (h : Holds o t raw folded i j) (ht : t.Unlinked)
    (hdir : o.outDir ≠ "") :
    t.held? ((Location.ofPath o.outDir).step rawName) = some (.file i) ∧
      t.held? ((Location.ofPath o.outDir).step foldedName) = some (.file j) ∧ i ≠ j := by
  obtain ⟨l, hl, hi⟩ := FileTree.file?_eq_some.mp h.rawFile
  obtain ⟨l', hl', hj⟩ := FileTree.file?_eq_some.mp h.foldedFile
  rw [ht.find hl, Location.ofPath_within hdir isName_rawName] at hi
  rw [ht.find hl', Location.ofPath_within hdir isName_foldedName] at hj
  refine ⟨hi, hj, ?_⟩
  rintro rfl
  have hsame := ht.single _ _ _ hi hj
  rw [Location.step_of_isName isName_rawName, Location.step_of_isName isName_foldedName] at hsame
  have hname : rawName = foldedName := by simpa using hsame
  exact absurd hname (by decide)

end Runs

end CSubset.Command.Compile
