import CSubset.Proofs.Surface.Names
import CSubset.Tree.File

/-!
# Trees that come from a text

A text that can be read is a program (`File.root_of_parse`). The tree is made in an arena, one node
after the other, and what is true of it whatever the arena is shown step by step (`Yields`).
-/

namespace CSubset

variable {file : File} {generation : UInt32} {path : String} {text : List Char}

theorem File.parse_eq_ok_iff :
    File.parse generation path text = .ok file ↔
      ∃ program, Surface.Program.ofText text = .ok program ∧
        file = ⟨path, (program.build.run (Arena.empty generation)).2,
          some (program.build.run (Arena.empty generation)).1⟩ := by
  unfold File.parse
  cases Surface.Program.ofText text with
  | error e => simp [bind, Except.bind]
  | ok program =>
    constructor
    · intro h
      exact ⟨program, rfl, (Except.ok.inj h).symm⟩
    · rintro ⟨_, heq, rfl⟩
      obtain rfl := Except.ok.inj heq
      rfl

/-- What is read is the tree of a program. -/
theorem File.program_of_parse
    (h : File.parse generation path text = .ok file) :
    ∃ program, Surface.Program.ofText text = .ok program ∧
      file.root = some (program.build.run (Arena.empty generation)).1 := by
  obtain ⟨program, hread, rfl⟩ := File.parse_eq_ok_iff.mp h
  exact ⟨program, hread, rfl⟩

theorem File.root_of_parse (h : File.parse generation path text = .ok file) :
    ∃ stamp items, file.root = some (.seq stamp .program items) := by
  obtain ⟨program, -, hroot⟩ := File.program_of_parse h
  exact ⟨_, _, hroot⟩

/-! ## What allocation yields -/

/-- Whatever the arena, the result satisfies `P`. -/
def Yields {α : Type} (P : α → Prop) (x : Alloc α) : Prop := ∀ a, P (x.run a).1

section Yields

variable {α β : Type} {P : α → Prop} {Q : β → Prop} {pos : Pos}

theorem Yields.pure {a : α} (h : P a) : Yields P (pure a) := fun _ => h

theorem Yields.bind {x : Alloc α} {k : α → Alloc β} (hx : Yields P x)
    (hk : ∀ a, P a → Yields Q (k a)) : Yields Q (x >>= k) :=
  fun a => hk _ (hx a) _

theorem Yields.mapM {γ : Type} {f : γ → Alloc α} {cs : List γ} (hf : ∀ c ∈ cs, Yields P (f c)) :
    Yields (fun as => ∀ a ∈ as, P a) (cs.mapM f) := by
  induction cs with
  | nil => exact .pure nofun
  | cons c cs ih =>
    obtain ⟨hc, hcs⟩ := List.forall_mem_cons.mp hf
    rw [List.mapM_cons]
    exact hc.bind fun a ha => (ih hcs).bind fun as has => .pure (List.forall_mem_cons.mpr ⟨ha, has⟩)

theorem yields_allocAt {P : Node → Prop} {make : Stamp → Node} (h : ∀ stamp, P (make stamp)) :
    Yields P (Arena.allocAt pos make) :=
  fun _ => h _

/-- The node of a list, as it is in the end, stands where it was opened and has the members that
were made in between. -/
theorem Surface.yields_withItems_of {P : List Node → Prop} {Q : Node → Prop} {form : SeqForm}
    {items : Alloc (List Node)} (h : Yields P items)
    (hlist : ∀ stamp ns, stamp.pos = pos → P ns → Q (.seq stamp form (ns.map some))) :
    Yields Q (withItems pos form items) :=
  fun _ => hlist _ _ rfl (h _)

end Yields

end CSubset
