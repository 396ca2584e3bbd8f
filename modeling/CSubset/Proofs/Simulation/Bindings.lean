import CSubset.Proofs.Execution.Tree
import CSubset.Proofs.Lowering.Growth

/-!
# Declarations and their slots

The declarations of a function are numbered in the order of the text. `Bindings` lists those that
were met so far, each with the instruction that makes its slot; a declaration in code that is left
out has none. `Bindings.Tracks` ties the list to a state of lowering: the latest declaration of a
name is what the name stands for there, and a name without one stands for a global variable or for
nothing in this function.
-/

namespace CSubset.Simulation

open Lowering
open IR (Ty Value Op Instr Block instrAt?)
open Execution (Scope)

/-- The declarations met so far, latest first: the name, and the number of the slot's
instruction. -/
abbrev Bindings := List (String × Option Nat)

namespace Bindings

variable {B B' : Bindings} {s s' : State} {f g : Frame} {x : String}

def scope (B : Bindings) : Scope := B.map Prod.fst

/-- The latest declaration of a name: its number and its slot. -/
def find? : Bindings → String → Option (Nat × Option Nat)
  | [], _ => none
  | (y, slot) :: older, x => if y = x then some (older.length, slot) else find? older x

theorem index?_scope (B : Bindings) (x : String) : B.scope.index? x = (B.find? x).map Prod.fst := by
  induction B with
  | nil => rfl
  | cons entry older ih =>
    obtain ⟨y, slot⟩ := entry
    have hlength : (scope older).length = older.length := List.length_map ..
    by_cases h : y = x
    · simp [scope, Scope.index?, find?, h]
    · simpa [scope, Scope.index?, find?, h] using ih

/-! ## Layouts -/

/-- A layout gives the slots of all declarations of a function; it agrees with the bindings on
theirs. -/
def Agrees : Bindings → (Nat → Option Nat) → Prop
  | [], _ => True
  | (_, slot) :: older, layout => layout older.length = slot ∧ Agrees older layout

theorem Agrees.of_append {layout : Nat → Option Nat} (h : Agrees (B' ++ B) layout) :
    Agrees B layout := by
  induction B' with
  | nil => exact h
  | cons entry newer ih => exact ih h.2

theorem Agrees.find? {layout : Nat → Option Nat} (h : Agrees B layout) {k : Nat} {slot : Option Nat}
    (hx : B.find? x = some (k, slot)) : layout k = slot := by
  induction B with
  | nil => simp [Bindings.find?] at hx
  | cons entry older ih =>
    obtain ⟨y, slot'⟩ := entry
    by_cases hy : y = x
    · obtain ⟨rfl, rfl⟩ : older.length = k ∧ slot' = slot := by simpa [Bindings.find?, hy] using hx
      exact h.1
    · exact ih h.2 (by simpa [Bindings.find?, hy] using hx)

/-- The layout that the declarations of a whole function have. -/
def layout (B : Bindings) (k : Nat) : Option Nat := (B.reverse[k]?).bind Prod.snd

theorem agrees_layout_append (B B' : Bindings) : Agrees B (layout (B' ++ B)) := by
  induction B generalizing B' with
  | nil => trivial
  | cons entry older ih =>
    obtain ⟨y, slot⟩ := entry
    refine ⟨by simp [layout], ?_⟩
    have := ih (B' ++ [(y, slot)])
    rwa [List.append_assoc] at this

theorem mem_of_layout {k r : Nat} (h : layout B k = some r) : ∃ x, (x, some r) ∈ B := by
  obtain ⟨⟨x, slot⟩, hk, rfl⟩ := Option.bind_eq_some_iff.mp h
  exact ⟨x, List.mem_reverse.mp (List.mem_of_getElem? hk)⟩

theorem layout_injective (hB : (B.filterMap Prod.snd).Nodup) {k l r : Nat}
    (hk : layout B k = some r) (hl : layout B l = some r) : k = l := by
  have hpairs : B.reverse.Pairwise fun p q => ∀ r, p.2 = some r → ∀ r', q.2 = some r' → r ≠ r' := by
    rw [← List.pairwise_filterMap, List.filterMap_reverse]
    exact (List.reverse_perm _).nodup_iff.mpr hB
  have hlt : ∀ {k l : Nat}, layout B k = some r → layout B l = some r → ¬k < l := by
    intro k l hk hl hkl
    obtain ⟨p, hp, hpr⟩ := Option.bind_eq_some_iff.mp hk
    obtain ⟨q, hq, hqr⟩ := Option.bind_eq_some_iff.mp hl
    obtain ⟨hkB, rfl⟩ := List.getElem?_eq_some_iff.mp hp
    obtain ⟨hlB, rfl⟩ := List.getElem?_eq_some_iff.mp hq
    exact List.pairwise_iff_getElem.mp hpairs k l hkB hlB hkl r hpr r hqr rfl
  have hkl := hlt hk hl
  have hlk := hlt hl hk
  omega

/-! ## What the symbols say

The scope of the tree and the symbols of lowering name the same slots. -/

/-- The bindings describe the variables of the function with frame `f` in state `s`. -/
structure Tracks (B : Bindings) (s : State) (f : Frame) : Prop where
  frame : s.frame = some f
  numbered : f.Numbered
  ret : f.ret = .void ∨ f.ret = .i32
  bound : ∀ x k r, B.find? x = some (k, some r) →
    s.symbol? x = some (.var (.result r (.ptr .i32)) (some f.func))
  free : ∀ x, B.find? x = none → ∀ slot owner, s.symbol? x = some (.var slot owner) →
    (owner = none ∧ slot = .global x .i32) ∨ ∃ func, func ≠ f.func ∧ owner = some func
  typed : ∀ x slot owner, s.symbol? x = some (.var slot owner) → owner = none ∨
    owner = some f.func → slot.ty = .ptr .i32
  slots : ∀ x r, (x, some r) ∈ B → ∃ i k name align, instrAt? f.blocks i k =
    some ⟨r, .alloca name .i32 align⟩
  nodup : (B.filterMap Prod.snd).Nodup

theorem Tracks.extend (h : B.Tracks s f) (hframe : s'.frame = some g)
    (hsymbols : s'.symbols = s.symbols) (hgrows : f.Extends g) : B.Tracks s' g where
  frame := hframe
  numbered := hgrows.numbered h.numbered
  ret := hgrows.ret ▸ h.ret
  bound x k r hx := by
    rw [State.symbol?, hsymbols, hgrows.func]
    exact h.bound x k r hx
  free x hx slot owner hslot := by
    rw [hgrows.func]
    rw [State.symbol?, hsymbols] at hslot
    exact h.free x hx slot owner hslot
  typed x slot owner hslot howner := by
    rw [hgrows.func] at howner
    rw [State.symbol?, hsymbols] at hslot
    exact h.typed x slot owner hslot howner
  slots x r hx := by
    obtain ⟨i, k, name, align, hinstr⟩ := h.slots x r hx
    exact ⟨i, k, name, align, hgrows.grow.instrAt? hinstr⟩
  nodup := h.nodup

theorem Tracks.moveTo (h : B.Tracks s f) (c : Option Nat) :
    B.Tracks (s.withFrame (f.moveTo c)) (f.moveTo c) :=
  ⟨rfl, h.numbered.congr rfl fun _ _ => rfl, h.ret, h.bound, h.free, h.typed, h.slots, h.nodup⟩

/-- A declaration whose slot has just been made. -/
theorem Tracks.declare (h : B.Tracks s f) {i : Nat} {b : Block} (hb : f.Filling i b)
    {base name : String} {align : Nat}
    (hgrows : ((f.useName base).push i b (.alloca name .i32 align)).Extends g)
    (hframe : s'.frame = some g)
    (hsymbols : s'.symbols = (x, .var (.result f.count (.ptr .i32)) (some f.func)) :: s.symbols) :
    Tracks ((x, some f.count) :: B) s' g := by
  have hb' := hb.useName base
  have hf : f.Extends g :=
    ((Frame.extends_useName f base).trans (Frame.extends_push hb' _)).trans hgrows
  have hsame : s'.symbol? x = some (.var (.result f.count (.ptr .i32)) (some f.func)) := by
    simp [State.symbol?, hsymbols]
  have hother : ∀ y, y ≠ x → s'.symbol? y = s.symbol? y := by
    intro y hy
    simp [State.symbol?, hsymbols, List.lookup_cons, beq_false_of_ne hy]
  refine ⟨hframe, hf.numbered h.numbered, hf.ret ▸ h.ret, ?_, ?_, ?_, ?_, ?_⟩
  · intro y k r hy
    rw [hf.func]
    by_cases hxy : x = y
    · subst hxy
      obtain ⟨-, rfl⟩ : B.length = k ∧ f.count = r := by simpa [find?] using hy
      exact hsame
    · rw [hother y (Ne.symm hxy)]
      exact h.bound y k r (by simpa [find?, hxy] using hy)
  · intro y hy slot owner hslot
    have hxy : x ≠ y := by
      rintro rfl
      simp [find?] at hy
    rw [hother y hxy.symm] at hslot
    rw [hf.func]
    exact h.free y (by simpa [find?, hxy] using hy) slot owner hslot
  · intro y slot owner hslot howner
    rw [hf.func] at howner
    by_cases hxy : y = x
    · subst hxy
      obtain ⟨rfl, -⟩ : Value.result f.count (.ptr .i32) = slot ∧ some f.func = owner := by
        simpa [hsame] using hslot
      rfl
    · rw [hother y hxy] at hslot
      exact h.typed y slot owner hslot howner
  · intro y r hy
    rcases List.mem_cons.mp hy with hy | hy
    · obtain ⟨rfl, rfl⟩ : y = x ∧ r = f.count := by simpa using hy
      exact ⟨i, b.instrs.length, name, align,
        hgrows.grow.instrAt? ((Frame.instrAt?_push hb').mpr (.inr ⟨rfl, rfl, rfl⟩))⟩
    · obtain ⟨j, k, name', align', hinstr⟩ := h.slots y r hy
      exact ⟨j, k, name', align', hf.grow.instrAt? hinstr⟩
  · -- older slots have smaller numbers
    have hfresh : f.count ∉ B.filterMap Prod.snd := by
      intro hmem
      obtain ⟨⟨y, slot⟩, hy, rfl⟩ := List.mem_filterMap.mp hmem
      obtain ⟨j, k, name', align', hinstr⟩ := h.slots y f.count hy
      exact absurd (h.numbered.below j k _ hinstr) (Nat.lt_irrefl _)
    simpa using ⟨by simpa using hfresh, h.nodup⟩

/-- Declarations in code that is left out. -/
theorem Tracks.skip (h : B.Tracks s f) (names : List String) :
    Tracks (names.map (·, none) ++ B) s f := by
  induction names with
  | nil => exact h
  | cons y names ih =>
    refine ⟨ih.frame, ih.numbered, ih.ret, ?_, ?_, ih.typed, ?_, ?_⟩
    · intro x k r hx
      by_cases hy : y = x
      · simp [find?, hy] at hx
      · exact ih.bound x k r (by simpa [find?, hy] using hx)
    · intro x hx
      by_cases hy : y = x
      · simp [find?, hy] at hx
      · exact ih.free x (by simpa [find?, hy] using hx)
    · intro x r hx
      exact ih.slots x r (by simpa using hx)
    · simpa using ih.nodup

/-- What a name stands for in the code: the slot of its latest declaration, or a global variable. -/
theorem Tracks.resolves (h : B.Tracks s f) {slot : Value} (hslot : s.Resolves x slot) :
    slot.ty = .ptr .i32 ∧
      (B.find? x = none → slot = .global x .i32) ∧
      ∀ k r, B.find? x = some (k, some r) → slot = .result r (.ptr .i32) := by
  obtain ⟨owner, hsymbol, howner⟩ := hslot
  have howner : owner = none ∨ owner = some f.func := by
    cases owner with
    | none => exact .inl rfl
    | some func =>
      have : f.func = func := by simpa [h.frame] using howner func rfl
      exact .inr (by rw [this])
  refine ⟨h.typed x slot owner hsymbol howner, ?_, ?_⟩
  · intro hx
    rcases h.free x hx slot owner hsymbol with ⟨-, hglobal⟩ | ⟨func, hfunc, rfl⟩
    · exact hglobal
    · rcases howner with h | h
      · simp at h
      · exact absurd (Option.some.inj h) hfunc
  · intro k r hx
    have := h.bound x k r hx
    rw [hsymbol] at this
    obtain ⟨rfl, -⟩ : slot = .result r (.ptr .i32) ∧ owner = some f.func := by simpa using this
    rfl

end Bindings

end CSubset.Simulation
