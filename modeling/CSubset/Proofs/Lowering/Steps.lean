import CSubset.Lowering.Visit
import CSubset.Proofs.Success

/-!
# Steps of lowering that succeed

A rejection or a fault never succeeds. Every primitive step of lowering has one lemma here, which
says what it gives and when, so that no later proof unfolds a primitive.
-/

namespace CSubset.Lowering

open IR (Ty Value Op Instr Term Block Func Module)

variable {α : Type} {s s' : State} {f : Frame} {u : Unit} {i : Nat} {b : Block} {name base : String}
  {c : Cause} {sym : Symbol} {v : Value}

@[simp] theorem gives_faulty {f : Fault} {a : α} : ¬Gives (faulty f) s a s' := by
  show ¬(Except.error _, s) = (Except.ok a, s')
  simp

@[simp] theorem gives_reject {p : Option Place} {a : α} : ¬Gives (reject c p) s a s' := by
  show ¬(Except.error _, s) = (Except.ok a, s')
  simp

@[simp] theorem gives_rejectAt {n : Node} {a : α} : ¬Gives (rejectAt n c) s a s' := gives_reject

@[simp] theorem gives_warn {pos : Option Pos} {c : WarningCause} :
    Gives (warn pos c) s u s' ↔ s' = { s with warnings := s.warnings ++ [⟨pos, c⟩] } := gives_modify

@[simp] theorem gives_bindSymbol :
    Gives (bindSymbol name sym) s u s' ↔ s' = { s with symbols := (name, sym) :: s.symbols } :=
  gives_modify

/-- What a name stands for is one of its bindings. -/
theorem State.mem_symbols {x : String} (h : s.symbol? x = some sym) : (x, sym) ∈ s.symbols := by
  obtain ⟨l₁, l₂, hsplit, -⟩ := List.lookup_eq_some_iff.mp h
  simp [hsplit]

/-! ## The body under construction -/

/-- The state with this body under construction. -/
def State.withFrame (s : State) (f : Frame) : State := { s with frame := some f }

@[simp] theorem State.withFrame_frame (s : State) (f : Frame) : (s.withFrame f).frame = some f :=
  rfl

@[simp] theorem State.withFrame_withFrame (s : State) (f g : Frame) :
    (s.withFrame f).withFrame g = s.withFrame g := rfl

theorem State.withFrame_self {s : State} (h : s.frame = some f) : s.withFrame f = s := by
  cases s
  cases h
  rfl

/-- Block `i` is being filled, and it is `b` so far. -/
structure Frame.Filling (f : Frame) (i : Nat) (b : Block) : Prop where
  cursor : f.cursor = some i
  block : f.blocks[i]? = some b
  isOpen : b.term = none

/-- The frame with one more instruction in block `i`, which was `b`. -/
def Frame.push (f : Frame) (i : Nat) (b : Block) (op : Op) : Frame :=
  { f with
    blocks := f.blocks.set i { b with instrs := b.instrs ++ [⟨f.count, op⟩] }
    count := f.count + 1 }

/-- The frame where block `i`, which was `b`, has an end. -/
def Frame.finish (f : Frame) (i : Nat) (b : Block) (t : Term) : Frame :=
  { f with blocks := f.blocks.set i { b with term := some t } }

/-- The frame where another block is being filled. -/
def Frame.moveTo (f : Frame) (cursor : Option Nat) : Frame := { f with cursor := cursor }

/-- The frame where the block that is being filled, if it is open, has this end. -/
def Frame.endWith (f : Frame) (t : Term) : Frame :=
  match f.current? with
  | some (i, b) => if b.term.isNone then f.finish i b t else f
  | none => f

/-- The local name that a frame gives out next for `base`. -/
def Frame.freshName (f : Frame) (base : String) : String :=
  let used := (f.names.lookup base).getD 0
  if used = 0 then base else s!"{base}.{used}"

/-- The frame that has given out one more name for `base`. -/
def Frame.useName (f : Frame) (base : String) : Frame :=
  { f with names := (base, (f.names.lookup base).getD 0 + 1) :: f.names }

/-- The frame with one more open block. -/
def Frame.addBlock (f : Frame) (base : String) : Frame :=
  { f.useName base with blocks := f.blocks ++ [⟨f.freshName base, [], none⟩] }

@[simp] theorem gives_inFunction {b : Bool} :
    Gives inFunction s b s' ↔ b = s.frame.isSome ∧ s' = s := by
  unfold inFunction
  simp [and_assoc, and_comm]

@[simp] theorem gives_getFrame : Gives getFrame s f s' ↔ s.frame = some f ∧ s' = s := by
  unfold getFrame
  simp only [gives_bind, gives_get, and_assoc, exists_and_left, exists_eq_left]
  cases s.frame <;> simp [eq_comm]

@[simp] theorem gives_setFrame :
    Gives (setFrame f) s u s' ↔ s' = s.withFrame f := gives_modify

theorem Frame.current?_eq_some :
    f.current? = some (i, b) ↔ f.cursor = some i ∧ f.blocks[i]? = some b := by
  unfold Frame.current?
  cases hc : f.cursor with
  | none => simp
  | some j =>
    cases hb : f.blocks[j]? with
    | none =>
      simp only [Option.bind_eq_bind, Option.bind_some, hb, Option.bind_none, reduceCtorEq,
        false_iff, not_and, Option.some.injEq]
      rintro rfl
      simp [hb]
    | some c =>
      simp only [Option.bind_eq_bind, Option.bind_some, hb, Option.pure_def,
        Option.some.injEq, Prod.mk.injEq]
      constructor
      · rintro ⟨rfl, rfl⟩
        exact ⟨rfl, hb⟩
      · rintro ⟨rfl, h⟩
        exact ⟨rfl, by simpa [hb] using h⟩

/-- A frame is open if it has a block to fill that is not ended. -/
theorem Frame.isOpen_iff : f.isOpen = true ↔ ∃ i b, f.Filling i b := by
  unfold Frame.isOpen
  rcases hc : f.current? with _ | ⟨i, b⟩
  · simp only [Bool.false_eq_true, false_iff]
    rintro ⟨i, b, h⟩
    simp [Frame.current?_eq_some.mpr ⟨h.cursor, h.block⟩] at hc
  · obtain ⟨hi, hb⟩ := Frame.current?_eq_some.mp hc
    simp only [Option.isNone_iff_eq_none]
    constructor
    · intro h
      exact ⟨i, b, hi, hb, h⟩
    · rintro ⟨j, b', h⟩
      have hsame := Frame.current?_eq_some.mpr ⟨h.cursor, h.block⟩
      rw [hc] at hsame
      obtain ⟨-, rfl⟩ : i = j ∧ b = b' := by simpa using hsame
      exact h.isOpen

theorem Frame.endWith_of_filling (h : f.Filling i b) (t : Term) : f.endWith t = f.finish i b t := by
  unfold Frame.endWith
  rw [Frame.current?_eq_some.mpr ⟨h.cursor, h.block⟩]
  simp [h.isOpen]

theorem Frame.endWith_of_not_isOpen (h : ¬f.isOpen = true) (t : Term) : f.endWith t = f := by
  unfold Frame.endWith
  unfold Frame.isOpen at h
  rcases hc : f.current? with _ | ⟨i, b⟩
  · rfl
  · simp only [hc] at h
    simp [h]

theorem Frame.Filling.unique {j : Nat} {c : Block} (h : f.Filling i b)
    (h' : f.Filling j c) : i = j ∧ b = c := by
  have hij : i = j := by simpa [h.cursor] using h'.cursor
  subst hij
  exact ⟨rfl, by simpa [h.block] using h'.block⟩

theorem Frame.Filling.useName (h : f.Filling i b) (base : String) : (f.useName base).Filling i b :=
  ⟨h.cursor, h.block, h.isOpen⟩

@[simp] theorem gives_isOpen {b : Bool} :
    Gives isOpen s b s' ↔ b = (s.frame.map Frame.isOpen).getD false ∧ s' = s := by
  unfold isOpen
  simp only [gives_bind, gives_get, and_assoc, exists_and_left, exists_eq_left]
  cases s.frame <;> simp

@[simp] theorem gives_getOpenBlock {p : Nat × Block} :
    Gives getOpenBlock s p s' ↔ (∃ f, s.frame = some f ∧ f.Filling p.1 p.2) ∧ s' = s := by
  unfold getOpenBlock
  simp only [gives_bind, gives_getFrame, and_assoc, exists_and_left, exists_eq_left]
  constructor
  · rintro ⟨f, hf, h⟩
    rcases hc : f.current? with _ | ⟨i, b⟩
    · simp [hc] at h
    · obtain ⟨hi, hb⟩ := Frame.current?_eq_some.mp hc
      simp only [hc, gives_ite, gives_faulty, and_false, false_or, gives_pure] at h
      obtain ⟨hterm, rfl, rfl⟩ := h
      exact ⟨⟨f, hf, hi, hb, by simpa using hterm⟩, rfl⟩
  · rintro ⟨⟨f, hf, hfill⟩, rfl⟩
    refine ⟨f, hf, ?_⟩
    rw [Frame.current?_eq_some.mpr ⟨hfill.cursor, hfill.block⟩]
    simp [hfill.isOpen]

@[simp] theorem gives_freshName :
    Gives (freshName base) s name s' ↔
      ∃ f, s.frame = some f ∧ name = f.freshName base ∧ s' = s.withFrame (f.useName base) := by
  unfold freshName
  simp only [gives_bind, gives_getFrame, gives_setFrame, gives_pure]
  constructor
  · rintro ⟨f, _, ⟨hf, rfl⟩, _, _, rfl, rfl, rfl⟩
    exact ⟨f, hf, rfl, rfl⟩
  · rintro ⟨f, hf, rfl, rfl⟩
    exact ⟨f, s, ⟨hf, rfl⟩, (), _, rfl, rfl, rfl⟩

@[simp] theorem gives_newBlock :
    Gives (newBlock base) s i s' ↔
      ∃ f, s.frame = some f ∧ i = f.blocks.length ∧ s' = s.withFrame (f.addBlock base) := by
  unfold newBlock
  simp only [gives_bind, gives_freshName, gives_getFrame, gives_setFrame, gives_pure]
  constructor
  · rintro ⟨_, _, ⟨f, hf, rfl, rfl⟩, g, _, ⟨hg, rfl⟩, _, _, rfl, rfl, rfl⟩
    obtain rfl : f.useName base = g := by simpa using hg
    exact ⟨f, hf, rfl, rfl⟩
  · rintro ⟨f, hf, rfl, rfl⟩
    exact ⟨_, _, ⟨f, hf, rfl, rfl⟩, _, _, ⟨rfl, rfl⟩, (), _, rfl, rfl, rfl⟩

@[simp] theorem gives_moveTo {c : Option Nat} :
    Gives (moveTo c) s u s' ↔
      ∃ f, s.frame = some f ∧ s' = s.withFrame (f.moveTo c) := by
  unfold moveTo
  simp [and_assoc, Frame.moveTo]

theorem gives_emit {op : Op} :
    Gives (emit op) s v s' ↔
      ∃ f i b, s.frame = some f ∧ f.Filling i b ∧ v = .result f.count op.ty ∧
        s' = s.withFrame (f.push i b op) := by
  unfold emit
  simp only [gives_bind, gives_getOpenBlock, gives_getFrame, gives_setFrame, gives_pure]
  constructor
  · rintro ⟨⟨i, b⟩, _, ⟨⟨f, hf, hfill⟩, rfl⟩, g, _, ⟨hg, rfl⟩, _, _, rfl, rfl, rfl⟩
    obtain rfl : f = g := by simpa [hf] using hg
    exact ⟨f, i, b, hf, hfill, rfl, rfl⟩
  · rintro ⟨f, i, b, hf, hfill, rfl, rfl⟩
    exact ⟨(i, b), s, ⟨⟨f, hf, hfill⟩, rfl⟩, f, s, ⟨hf, rfl⟩, (), _, rfl, rfl, rfl⟩

theorem gives_close {t : Term} :
    Gives (close t) s u s' ↔
      ∃ f i b, s.frame = some f ∧ f.Filling i b ∧ s' = s.withFrame (f.finish i b t) := by
  unfold close
  simp only [gives_bind, gives_getOpenBlock, gives_getFrame, gives_setFrame]
  constructor
  · rintro ⟨⟨i, b⟩, _, ⟨⟨f, hf, hfill⟩, rfl⟩, g, _, ⟨hg, rfl⟩, rfl⟩
    obtain rfl : f = g := by simpa [hf] using hg
    exact ⟨f, i, b, hf, hfill, rfl⟩
  · rintro ⟨f, i, b, hf, hfill, rfl⟩
    exact ⟨(i, b), s, ⟨⟨f, hf, hfill⟩, rfl⟩, f, s, ⟨hf, rfl⟩, rfl⟩

theorem gives_newSlot {elem : Ty} {align : Nat} :
    Gives (newSlot name elem align) s v s' ↔
      ∃ f i b, s.frame = some f ∧ f.Filling i b ∧ v = .result f.count (.ptr elem) ∧
        s' = s.withFrame ((f.useName name).push i b (.alloca (f.freshName name) elem align)) := by
  unfold newSlot
  simp only [gives_bind, gives_freshName, gives_emit]
  constructor
  · rintro ⟨_, _, ⟨f, hf, rfl, rfl⟩, g, i, b, hg, hfill, rfl, rfl⟩
    obtain rfl : f.useName name = g := by simpa using hg
    exact ⟨f, i, b, hf, ⟨hfill.cursor, hfill.block, hfill.isOpen⟩, rfl, rfl⟩
  · rintro ⟨f, i, b, hf, hfill, rfl, rfl⟩
    exact ⟨_, _, ⟨f, hf, rfl, rfl⟩, _, i, b, rfl, hfill.useName name, rfl, rfl⟩

/-- Jump from the block that is being filled, if that is open, and go on with another one. -/
def leaveBody (target next : Nat) : LowerM (Option Value) := do
  if ← isOpen then close (.br target)
  moveTo (some next)
  return none

/-- A body that is still open jumps to its target. -/
theorem gives_leaveBody {target next : Nat} {v : Option Value} :
    Gives (leaveBody target next) s v s' ↔
      ∃ f, s.frame = some f ∧
        s' = s.withFrame ((f.endWith (.br target)).moveTo (some next)) ∧ v = none := by
  unfold leaveBody
  simp only [gives_bind, gives_isOpen, gives_ite, gives_pure, gives_moveTo, gives_close]
  constructor
  · rintro ⟨_, _, ⟨rfl, rfl⟩, ⟨-, _, _, ⟨f, i, b, hf, hfill, rfl⟩, _, _, ⟨g, hg, rfl⟩, rfl, rfl⟩ |
      ⟨ho, _, _, ⟨f, hf, rfl⟩, rfl, rfl⟩⟩
    · obtain rfl : f.finish i b (.br target) = g := by simpa using hg
      exact ⟨f, hf, by rw [Frame.endWith_of_filling hfill, State.withFrame_withFrame], rfl⟩
    · rw [hf] at ho
      exact ⟨f, hf, by rw [Frame.endWith_of_not_isOpen (by simpa using ho)], rfl⟩
  · rintro ⟨f, hf, rfl, rfl⟩
    refine ⟨_, _, ⟨rfl, rfl⟩, ?_⟩
    by_cases ho : f.isOpen = true
    · obtain ⟨i, b, hfill⟩ := Frame.isOpen_iff.mp ho
      refine .inl
        ⟨by simpa [hf] using ho, (), _, ⟨f, i, b, hf, hfill, rfl⟩, (), _, ⟨_, rfl, rfl⟩, rfl, ?_⟩
      rw [Frame.endWith_of_filling hfill, State.withFrame_withFrame]
    · refine .inr ⟨by simpa [hf] using ho, (), _, ⟨f, hf, rfl⟩, rfl, ?_⟩
      rw [Frame.endWith_of_not_isOpen ho]

end CSubset.Lowering
