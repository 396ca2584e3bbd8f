import CSubset.Proofs.Lowering.Forms

/-!
# How a body grows while it is lowered

Lowering a statement appends to the block that is being filled and adds new blocks; it leaves every
other block alone, and a block that has its end for good (`Frame.Extends`). Lowering an expression
only appends instructions to the one block, and no slots (`Frame.Emits`). The instructions of a body
have different numbers (`Frame.Numbered`).

Main statements: `emits_of_gives_visit` for expressions, `within_of_gives_visit` for statements.
-/

namespace CSubset

namespace IR

/-- Instruction `k` of block `i`. -/
def instrAt? (blocks : List Block) (i k : Nat) : Option Instr := blocks[i]?.bind (·.instrs[k]?)

/-- Whether an instruction makes a slot. -/
def Op.isSlot : Op → Bool
  | .alloca _ _ _ => true
  | _ => false

/-- Block `c` is block `b` with more instructions or with an end. A block that has an end does not
change. -/
structure Block.Grows (b c : Block) : Prop where
  label : c.label = b.label
  instrs : b.instrs <+: c.instrs
  closed : b.term ≠ none → c = b

namespace Block.Grows

variable {b c : Block}

theorem refl (b : Block) : b.Grows b := ⟨rfl, List.prefix_rfl, fun _ => rfl⟩

theorem trans {d : Block} (h₁ : b.Grows c) (h₂ : c.Grows d) : b.Grows d where
  label := h₂.label.trans h₁.label
  instrs := h₁.instrs.trans h₂.instrs
  closed hb := by
    obtain rfl := h₁.closed hb
    exact h₂.closed hb

/-- An instruction stays where it is. -/
theorem getElem? (h : b.Grows c) {k : Nat} {x : Instr} (hx : b.instrs[k]? = some x) :
    c.instrs[k]? = some x := by
  obtain ⟨rest, hrest⟩ := h.instrs
  rw [← hrest, List.getElem?_append_left (List.getElem?_eq_some_iff.mp hx).1, hx]

end Block.Grows

/-- The blocks `cs` are the blocks `bs`, grown, and more. -/
def Grow (bs cs : List Block) : Prop :=
  ∀ (i : Nat) (b : Block), bs[i]? = some b → ∃ c, cs[i]? = some c ∧ b.Grows c

namespace Grow

variable {bs cs : List Block} {i : Nat}

theorem refl (bs : List Block) : Grow bs bs := fun _ b h => ⟨b, h, .refl b⟩

theorem trans {ds : List Block} (h₁ : Grow bs cs) (h₂ : Grow cs ds) : Grow bs ds := by
  intro i b hb
  obtain ⟨c, hc, hbc⟩ := h₁ i b hb
  obtain ⟨d, hd, hcd⟩ := h₂ i c hc
  exact ⟨d, hd, hbc.trans hcd⟩

theorem instrAt? (h : Grow bs cs) {k : Nat} {x : Instr}
    (hx : IR.instrAt? bs i k = some x) : IR.instrAt? cs i k = some x := by
  obtain ⟨b, hb, hk⟩ := Option.bind_eq_some_iff.mp hx
  obtain ⟨c, hc, hbc⟩ := h i b hb
  exact Option.bind_eq_some_iff.mpr ⟨c, hc, hbc.getElem? hk⟩

/-- A block with an end stays as it is. -/
theorem closed (h : Grow bs cs) {b : Block} {t : Term} (hb : bs[i]? = some b)
    (ht : b.term = some t) : cs[i]? = some b := by
  obtain ⟨c, hc, hbc⟩ := h i b hb
  rw [hc, hbc.closed (by simp [ht])]

end Grow

end IR

namespace Lowering

open IR (Ty Value Op BinOp Term Instr Block Func instrAt?)

variable {s s' : State} {f g h : Frame} {i : Nat} {b : Block} {k j : Nat} {n : Option Node}
  {t : Term} {u : Unit} {c : Block} {op : Op} {want : Ty} {y x : Value} {base : String}
  {ns : List (Option Node)}

/-! ## Instructions of the changed frames -/

theorem Frame.Filling.lt (hb : f.Filling i b) : i < f.blocks.length :=
  (List.getElem?_eq_some_iff.mp hb.block).1

theorem Frame.Filling.push (hb : f.Filling i b) (op : Op) :
    (f.push i b op).Filling i { b with instrs := b.instrs ++ [⟨f.count, op⟩] } :=
  ⟨hb.cursor, by simp [Frame.push, hb.lt], hb.isOpen⟩

/-- The new instruction stands at the end of the block that is filled. -/
theorem Frame.instrAt?_push (hb : f.Filling i b) {x : Instr} :
    instrAt? (f.push i b op).blocks j k = some x ↔
      instrAt? f.blocks j k = some x ∨ (j = i ∧ k = b.instrs.length ∧ x = ⟨f.count, op⟩) := by
  unfold instrAt? Frame.push
  by_cases hj : j = i
  · subst hj
    simp only [List.getElem?_set_self hb.lt, hb.block, Option.bind_some]
    rw [List.getElem?_append]
    split
    · grind
    · rw [List.getElem?_eq_none (by omega : b.instrs.length ≤ k)]
      grind
  · simp only [List.getElem?_set_ne (Ne.symm hj), hj, false_and, or_false]

theorem Frame.instrAt?_finish (hb : f.Filling i b) :
    instrAt? (f.finish i b t).blocks j k = instrAt? f.blocks j k := by
  unfold instrAt? Frame.finish
  by_cases hj : j = i
  · subst hj
    simp only [List.getElem?_set_self hb.lt, hb.block, Option.bind_some]
  · simp only [List.getElem?_set_ne (Ne.symm hj)]

theorem Frame.instrAt?_addBlock :
    instrAt? (f.addBlock base).blocks j k = instrAt? f.blocks j k := by
  unfold instrAt? Frame.addBlock
  simp only [List.getElem?_append]
  split
  · rfl
  · rw [List.getElem?_eq_none (by omega : f.blocks.length ≤ j), List.getElem?_singleton]
    split <;> simp

/-- The instructions have different numbers, and no number is used that is still to come. -/
structure Frame.Numbered (f : Frame) : Prop where
  below : ∀ i k x, instrAt? f.blocks i k = some x → x.number < f.count
  unique : ∀ i k x j l y, instrAt? f.blocks i k = some x → instrAt? f.blocks j l = some y →
    x.number = y.number → i = j ∧ k = l

/-- The new instruction takes the next number. -/
theorem Frame.Numbered.push (hf : f.Numbered) (hb : f.Filling i b) (op : Op) :
    (f.push i b op).Numbered where
  below j k x hx := by
    show x.number < f.count + 1
    rcases (Frame.instrAt?_push hb).mp hx with hx | ⟨-, -, rfl⟩
    · have := hf.below j k x hx
      omega
    · exact Nat.lt_succ_self _
  unique j k x l m y hx hy hxy := by
    rcases (Frame.instrAt?_push hb).mp hx with hx' | ⟨rfl, rfl, rfl⟩ <;>
      rcases (Frame.instrAt?_push hb).mp hy with hy' | ⟨rfl, rfl, rfl⟩
    · exact hf.unique j k x l m y hx' hy' hxy
    · exact absurd hxy (Nat.ne_of_lt (hf.below _ _ _ hx'))
    · exact absurd hxy.symm (Nat.ne_of_lt (hf.below _ _ _ hy'))
    · exact ⟨rfl, rfl⟩

theorem Frame.Numbered.congr (hf : f.Numbered) (hcount : g.count = f.count)
    (hinstrs : ∀ j k, instrAt? g.blocks j k = instrAt? f.blocks j k) : g.Numbered where
  below j k x hx := hcount ▸ hf.below j k x (hinstrs j k ▸ hx)
  unique j k x l m y hx hy := hf.unique j k x l m y (hinstrs j k ▸ hx) (hinstrs l m ▸ hy)

/-! ## Growth of a frame

Blocks that are not filled stay as they are, and the one that is filled only gets longer. -/

/-- Frame `g` comes from `f` by filling its block and adding others. -/
structure Frame.Extends (f g : Frame) : Prop where
  func : g.func = f.func
  ret : g.ret = f.ret
  count : f.count ≤ g.count
  length : f.blocks.length ≤ g.blocks.length
  others : ∀ i < f.blocks.length, f.cursor ≠ some i → g.blocks[i]? = f.blocks[i]?
  filled : ∀ i b, f.cursor = some i → f.blocks[i]? = some b → ∃ c, g.blocks[i]? = some c ∧ b.Grows c
  cursor : g.cursor = f.cursor ∨ ∀ i, g.cursor = some i → f.blocks.length ≤ i
  numbered : f.Numbered → g.Numbered

namespace Frame.Extends

theorem refl (f : Frame) : f.Extends f :=
  ⟨rfl, rfl, Nat.le_refl _, Nat.le_refl _, fun _ _ _ => rfl, fun _ b _ hb =>
    ⟨b, hb, .refl b⟩, .inl rfl, id⟩

theorem cursor_ne (hfg : f.Extends g) {i : Nat} (hi : i < f.blocks.length)
    (hcursor : f.cursor ≠ some i) : g.cursor ≠ some i := by
  rcases hfg.cursor with hc | hc
  · rwa [hc]
  · intro h
    have := hc i h
    omega

theorem trans (hfg : f.Extends g) (hgh : g.Extends h) : f.Extends h where
  func := hgh.func.trans hfg.func
  ret := hgh.ret.trans hfg.ret
  count := Nat.le_trans hfg.count hgh.count
  length := Nat.le_trans hfg.length hgh.length
  others i hi hcursor := by
    rw [hgh.others i (Nat.lt_of_lt_of_le hi hfg.length) (hfg.cursor_ne hi hcursor),
      hfg.others i hi hcursor]
  filled i b hcursor hb := by
    obtain ⟨c, hc, hbc⟩ := hfg.filled i b hcursor hb
    by_cases hg : g.cursor = some i
    · obtain ⟨d, hd, hcd⟩ := hgh.filled i c hg hc
      exact ⟨d, hd, hbc.trans hcd⟩
    · refine ⟨c, ?_, hbc⟩
      rw [hgh.others i (List.getElem?_eq_some_iff.mp hc).1 hg, hc]
  cursor := by
    rcases hgh.cursor with hc | hc
    · rw [hc]
      exact hfg.cursor
    · exact .inr fun i hi => Nat.le_trans hfg.length (hc i hi)
  numbered hf := hgh.numbered (hfg.numbered hf)

theorem grow (hfg : f.Extends g) : IR.Grow f.blocks g.blocks := by
  intro i b hb
  by_cases hcursor : f.cursor = some i
  · exact hfg.filled i b hcursor hb
  · refine ⟨b, ?_, .refl b⟩
    rw [hfg.others i (List.getElem?_eq_some_iff.mp hb).1 hcursor, hb]

/-- Only what the cursor was moved to since `f` counts. -/
theorem moveTo (hfg : f.Extends g) {c : Option Nat} (hc : ∀ i, c = some i → f.blocks.length ≤ i) :
    f.Extends (g.moveTo c) where
  func := hfg.func
  ret := hfg.ret
  count := hfg.count
  length := hfg.length
  others := hfg.others
  filled := hfg.filled
  cursor := .inr hc
  numbered hf := (hfg.numbered hf).congr rfl fun _ _ => rfl

end Frame.Extends

theorem Frame.extends_push (hb : f.Filling i b) (op : Op) : f.Extends (f.push i b op) where
  func := rfl
  ret := rfl
  count := Nat.le_succ _
  length := by simp [Frame.push]
  others j _ hj := by
    have hij : i ≠ j := by
      rintro rfl
      exact hj hb.cursor
    exact List.getElem?_set_ne hij
  filled j c hj hc := by
    obtain rfl := Option.mem_unique hb.cursor hj
    obtain rfl := Option.mem_unique hb.block hc
    exact ⟨_, (hb.push op).block, rfl, List.prefix_append _ _, fun h => absurd hb.isOpen h⟩
  cursor := .inl rfl
  numbered hf := hf.push hb op

theorem Frame.extends_finish (hb : f.Filling i b) (t : Term) : f.Extends (f.finish i b t) where
  func := rfl
  ret := rfl
  count := Nat.le_refl _
  length := by simp [Frame.finish]
  others j _ hj := by
    have hij : i ≠ j := by
      rintro rfl
      exact hj hb.cursor
    exact List.getElem?_set_ne hij
  filled j c hj hc := by
    obtain rfl := Option.mem_unique hb.cursor hj
    obtain rfl := Option.mem_unique hb.block hc
    exact ⟨_, List.getElem?_set_self hb.lt, rfl, List.prefix_rfl, fun h => absurd hb.isOpen h⟩
  cursor := .inl rfl
  numbered hf := hf.congr rfl fun _ _ => Frame.instrAt?_finish hb

theorem Frame.extends_endWith (f : Frame) (t : Term) : f.Extends (f.endWith t) := by
  by_cases ho : f.isOpen = true
  · obtain ⟨i, b, hb⟩ := Frame.isOpen_iff.mp ho
    rw [Frame.endWith_of_filling hb]
    exact Frame.extends_finish hb t
  · rw [Frame.endWith_of_not_isOpen ho]
    exact .refl f

theorem Frame.extends_addBlock (f : Frame) (base : String) : f.Extends (f.addBlock base) where
  func := rfl
  ret := rfl
  count := Nat.le_refl _
  length := by simp [Frame.addBlock]
  others j hj _ := List.getElem?_append_left hj
  filled j c _ hc :=
    ⟨c, (List.getElem?_append_left (List.getElem?_eq_some_iff.mp hc).1).trans hc, .refl c⟩
  cursor := .inl rfl
  numbered hf := hf.congr rfl fun _ _ => Frame.instrAt?_addBlock

theorem Frame.extends_useName (f : Frame) (base : String) : f.Extends (f.useName base) :=
  ⟨rfl, rfl, Nat.le_refl _, Nat.le_refl _, fun _ _ _ => rfl, fun _ b _ hb => ⟨b, hb, .refl b⟩,
    .inl rfl, fun hf => hf.congr rfl fun _ _ => rfl⟩

/-- Block `k` is empty and another one is being filled. -/
def Frame.Waits (f : Frame) (k : Nat) : Prop :=
  f.cursor ≠ some k ∧ ∃ label, f.blocks[k]? = some ⟨label, [], none⟩

theorem Frame.Waits.extend (hk : f.Waits k) (hfg : f.Extends g) : g.Waits k := by
  obtain ⟨hcursor, label, hblock⟩ := hk
  have hlt := (List.getElem?_eq_some_iff.mp hblock).1
  exact ⟨hfg.cursor_ne hlt hcursor, label, (hfg.others k hlt hcursor).trans hblock⟩

theorem Frame.Waits.moveTo (hk : f.Waits k) {c : Option Nat} (hc : c ≠ some k) :
    (f.moveTo c).Waits k :=
  ⟨hc, hk.2⟩

theorem Frame.Waits.filling (hk : f.Waits k) :
    ∃ label, (f.moveTo (some k)).Filling k ⟨label, [], none⟩ := by
  obtain ⟨-, label, hblock⟩ := hk
  exact ⟨label, rfl, hblock, rfl⟩

theorem Frame.Waits.isOpen (hk : f.Waits k) : (f.moveTo (some k)).isOpen = true := by
  obtain ⟨label, hb⟩ := hk.filling
  exact Frame.isOpen_iff.mpr ⟨k, _, hb⟩

theorem Frame.Filling.isOpen_finish (hb : f.Filling i b) (t : Term) :
    (f.finish i b t).isOpen = false := by
  have hcurrent : (f.finish i b t).current? = some (i, { b with term := some t }) :=
    Frame.current?_eq_some.mpr ⟨hb.cursor, List.getElem?_set_self hb.lt⟩
  simp [Frame.isOpen, hcurrent]

theorem Frame.Filling.addBlock (hb : f.Filling i b) (base : String) :
    (f.addBlock base).Filling i b :=
  ⟨hb.cursor, (List.getElem?_append_left hb.lt).trans hb.block, hb.isOpen⟩

@[simp] theorem Frame.length_addBlock (f : Frame) (base : String) :
    (f.addBlock base).blocks.length = f.blocks.length + 1 := by
  simp [Frame.addBlock]

/-- The block that has been added waits to be filled. -/
theorem Frame.Filling.waits (hb : f.Filling i b) (base : String) :
    (f.addBlock base).Waits f.blocks.length := by
  refine ⟨?_, f.freshName base, by simp [Frame.addBlock]⟩
  intro h
  have hi : i = f.blocks.length := Option.mem_unique hb.cursor h
  exact absurd hb.lt (by omega)

theorem Frame.Filling.waits_pair (hb : f.Filling i b) (x y : String) :
    ((f.addBlock x).addBlock y).Waits f.blocks.length ∧
      ((f.addBlock x).addBlock y).Waits (f.blocks.length + 1) := by
  refine ⟨(hb.waits x).extend (Frame.extends_addBlock _ y), ?_⟩
  have hlast := (hb.addBlock x).waits y
  rwa [Frame.length_addBlock] at hlast

/-- The three blocks of a loop wait to be filled. -/
theorem Frame.Filling.waits_addLoop (hb : f.Filling i b) :
    f.addLoop.Filling i b ∧ f.addLoop.Waits f.blocks.length ∧
      f.addLoop.Waits (f.blocks.length + 1) ∧
      f.addLoop.Waits (f.blocks.length + 2) := by
  have hb₂ := (hb.addBlock "while.cond").addBlock "while.body"
  have hgrows :=
    Frame.extends_addBlock ((f.addBlock "while.cond").addBlock "while.body") "while.end"
  obtain ⟨hcond, hbody⟩ := hb.waits_pair "while.cond" "while.body"
  refine ⟨hb₂.addBlock "while.end", hcond.extend hgrows, hbody.extend hgrows, ?_⟩
  have hlast := hb₂.waits "while.end"
  rwa [Frame.length_addBlock, Frame.length_addBlock] at hlast

theorem Frame.closed_push (hb : f.Filling i b)
    (hc : (f.push i b op).blocks[k]? = some c)
    (ht : c.term = some t) : f.blocks[k]? = some c := by
  by_cases hk : k = i
  · subst hk
    obtain rfl : _ = c := by simpa [(hb.push op).block] using hc
    simp [hb.isOpen] at ht
  · rw [← hc, Frame.push, List.getElem?_set_ne (Ne.symm hk)]

theorem Frame.closed_finish (hb : f.Filling i b) {e : Term}
    (hc : (f.finish i b e).blocks[k]? = some c) (ht : c.term = some t) :
    (k = i ∧ c = { b with term := some e } ∧ t = e) ∨ f.blocks[k]? = some c := by
  by_cases hk : k = i
  · subst hk
    have hblock : (f.finish k b e).blocks[k]? = some { b with term := some e } := by
      simp [Frame.finish, hb.lt]
    obtain rfl : _ = c := by simpa [hblock] using hc
    exact .inl ⟨rfl, rfl, (Option.some.inj ht).symm⟩
  · right
    rw [← hc, Frame.finish, List.getElem?_set_ne (Ne.symm hk)]

theorem Frame.closed_addBlock (hc : (f.addBlock base).blocks[k]? = some c)
    (ht : c.term = some t) : f.blocks[k]? = some c := by
  rcases Nat.lt_or_ge k f.blocks.length with hk | hk
  · exact (List.getElem?_append_left hk).symm.trans hc
  · have hnew : [Block.mk (f.freshName base) [] none][k - f.blocks.length]? = some c :=
      (List.getElem?_append_right hk).symm.trans hc
    obtain ⟨hlt, rfl⟩ := List.getElem?_eq_some_iff.mp hnew
    obtain hzero : k - f.blocks.length = 0 := by simpa using hlt
    simp [hzero] at ht

/-! ## Expressions

An expression is lowered within one block, to instructions at its end. -/

/-- Frame `g` is `f` with more instructions in the block that is being filled, none of them a
slot. -/
inductive Frame.Emits (f : Frame) : Frame → Prop where
  | refl : f.Emits f
  | push {g : Frame} {i : Nat} {b : Block} {op : Op} (hg : f.Emits g) (hb : g.Filling i b)
      (hop : op.isSlot = false) : f.Emits (g.push i b op)

namespace Frame.Emits

theorem trans (hfg : f.Emits g) (hgh : g.Emits h) : f.Emits h := by
  induction hgh with
  | refl => exact hfg
  | push _ hb hop ih => exact .push ih hb hop

theorem toExtends (hfg : f.Emits g) : f.Extends g := by
  induction hfg with
  | refl => exact .refl f
  | push _ hb _ ih => exact ih.trans (Frame.extends_push hb _)

/-- The block that is being filled stays the same and open. -/
theorem filling (hfg : f.Emits g) (hb : f.Filling i b) : ∃ c, g.Filling i c ∧ b.Grows c := by
  induction hfg with
  | refl => exact ⟨b, hb, .refl b⟩
  | push _ hc _ ih =>
    obtain ⟨c, hgc, hbc⟩ := ih
    obtain ⟨rfl, rfl⟩ := hc.unique hgc
    refine ⟨_, hc.push _, hbc.trans ⟨rfl, List.prefix_append _ _, fun h => absurd hc.isOpen h⟩⟩

theorem isOpen (hfg : f.Emits g) (hf : f.isOpen = true) : g.isOpen = true := by
  obtain ⟨i, b, hb⟩ := Frame.isOpen_iff.mp hf
  obtain ⟨c, hc, -⟩ := hfg.filling hb
  exact Frame.isOpen_iff.mpr ⟨i, c, hc⟩

end Frame.Emits

/-- Between the two states only instructions that are no slots were appended. -/
def State.Emits (s s' : State) : Prop := ∀ f, s.frame = some f → ∃ g, f.Emits g ∧ s' = s.withFrame g

theorem State.Emits.refl (s : State) : s.Emits s :=
  fun f hf => ⟨f, .refl, (State.withFrame_self hf).symm⟩

theorem State.Emits.trans {t : State} (h₁ : s.Emits t) (h₂ : t.Emits s') : s.Emits s' := by
  intro f hf
  obtain ⟨g, hfg, rfl⟩ := h₁ f hf
  obtain ⟨h, hgh, rfl⟩ := h₂ g rfl
  exact ⟨h, hfg.trans hgh, rfl⟩

theorem emits_of_gives_emit {v : Value} (hop : op.isSlot = false) (hv : Gives (emit op) s v s') :
    s.Emits s' := by
  obtain ⟨f, i, b, hf, hb, -, rfl⟩ := gives_emit.mp hv
  intro f' hf'
  obtain rfl := Option.mem_unique hf hf'
  exact ⟨_, .push .refl hb hop, rfl⟩

theorem emits_of_gives_load {u : Value} (hx : Gives (load u) s x s') : s.Emits s' := by
  rcases gives_load.mp hx with ⟨elem, -, hx⟩ | ⟨-, -, rfl⟩
  · exact emits_of_gives_emit rfl hx
  · exact .refl _

theorem emits_of_gives_coerce {n : Node} (hy : Gives (coerce n x want) s y s') : s.Emits s' := by
  rcases gives_coerce.mp hy with ⟨-, -, rfl⟩ | ⟨-, -, hy⟩ | ⟨-, -, hy⟩
  · exact .refl _
  · exact emits_of_gives_emit rfl hy
  · exact emits_of_gives_emit rfl hy

/-- What is needed of a child to be an operand. -/
theorem emits_of_gives_visitOperand
    (hvisit : ∀ t, n = some t → ∀ s u s', Gives (visit t) s (some u) s' → s.Emits s')
    (hy : Gives (visitOperand want n) s y s') : s.Emits s' := by
  obtain ⟨t, u, s₁, x, s₂, rfl, hu, hx, hy⟩ := gives_visitOperand.mp hy
  exact ((hvisit t rfl s u s₁ hu).trans (emits_of_gives_load hx)).trans (emits_of_gives_coerce hy)

theorem emits_of_gives_visitOperands {types : List Ty} {ys : List Value}
    (hvisit : ∀ t, some t ∈ ns → ∀ s u s', Gives (visit t) s (some u) s' → s.Emits s')
    (hys : Gives (visitOperands types ns) s ys s') : s.Emits s' := by
  induction ns generalizing types s ys with
  | nil =>
    obtain ⟨-, rfl⟩ := gives_visitOperands_nil.mp hys
    exact .refl _
  | cons n ns ih =>
    obtain ⟨y, s₁, rest, hy, hrest, -⟩ := gives_visitOperands_cons.mp hys
    have hfirst : s.Emits s₁ := emits_of_gives_visitOperand (fun t ht => hvisit t (by simp [ht])) hy
    exact hfirst.trans (ih (fun t ht => hvisit t (List.mem_cons_of_mem _ ht)) hrest)

theorem instruction?_isSlot {form : BinaryForm} {ty : Ty} {op : Value → Value → Op}
    (hform : form.instruction? = some (ty, op)) (x y : Value) : (op x y).isSlot = false := by
  unfold BinaryForm.instruction? at hform
  split at hform <;> simp only [Option.some.injEq, Prod.mk.injEq, reduceCtorEq] at hform <;>
    obtain ⟨-, rfl⟩ := hform <;> rfl

/-- Only expressions have a value, and lowering one appends instructions that are no slots. -/
theorem emits_of_gives_visit (t : Node) : ∀ s u s', Gives (visit t) s (some u) s' → s.Emits s' := by
  induction t using Tree.ind with
  | leaf l form =>
    intro s u s' hu
    rcases gives_visit_leaf.mp hu with ⟨c, -, -, rfl⟩ | ⟨x, stars, slot, -, -, -, rfl⟩
      <;> exact .refl _
  | seq l form items ih => exact fun s u s' hu => absurd hu not_gives_visit_seq
  | unary l form child ih ihArgs =>
    intro s u s' hu
    cases form with
    | signature name => exact absurd hu not_gives_visit_signature
    | ret => cases child <;> simp [gives_visit_return_none, gives_visit_return_some] at hu
    | call callee =>
      obtain ⟨fn, values, s₁, w, -, hargs, hw, -⟩ := gives_visit_call.mp hu
      have hcall : s₁.Emits s' := emits_of_gives_emit rfl hw
      rcases gives_visitArgs.mp hargs with ⟨place, items, rfl, hitems⟩ | ⟨-, -, rfl⟩
      · exact (emits_of_gives_visitOperands (ihArgs _ _ _ rfl) hitems).trans hcall
      · exact hcall
  | binary l form left right ihl ihr =>
    intro s u s' hu
    rcases form.view with ⟨ty, op, hform⟩ | ⟨op, hform⟩ | hform | rfl | rfl | rfl | rfl | rfl
    · obtain ⟨x, s₁, y, s₂, w, hx, hy, hw, -⟩ := (gives_visit_operator hform).mp hu
      exact ((emits_of_gives_visitOperand ihl hx).trans (emits_of_gives_visitOperand ihr hy)).trans
        (emits_of_gives_emit (instruction?_isSlot hform x y) hw)
    · obtain ⟨x, s₁, place, k, w, hx, -, -, hw, -⟩ := (gives_visit_shift hform).mp hu
      exact (emits_of_gives_visitOperand ihl hx).trans (emits_of_gives_emit rfl hw)
    · exact absurd hu (not_gives_visit_unknown hform)
    · obtain ⟨place, x, stars, slot, y, s₁, w, -, -, hy, hw, -⟩ := gives_visit_assign.mp hu
      exact (emits_of_gives_visitOperand ihr hy).trans (emits_of_gives_emit rfl hw)
    · simp [gives_visit_declaration] at hu
    · simp [gives_visit_forward] at hu
    · simp [gives_visit_ifThen] at hu
    · simp [gives_visit_while] at hu
  | ternary l form first second third ih₁ ih₂ ih₃ =>
    intro s u s' hu
    cases form with
    | definition => simp [gives_visit_definition] at hu
    | ifThenElse => simp [gives_visit_ifThenElse] at hu

/-! ## Statements

A statement may end the block and begin others, so it keeps less than an expression does. -/

/-- What lowering inside the function with frame `f` changes: the frame, which becomes `g`, the
bindings of the function's own variables, and the warnings. -/
structure State.Within (s s' : State) (f g : Frame) : Prop where
  frame : s'.frame = some g
  grows : f.Extends g
  module : s'.module = s.module
  defined : s'.defined = s.defined
  scope : s'.scope = s.scope
  rejections : s'.rejections = s.rejections
  symbols : ∃ new, s'.symbols = new ++ s.symbols ∧ ∀ p ∈ new, ∃ slot, p.2 = .var slot (some f.func)

namespace State.Within

theorem refl (hf : s.frame = some f) : s.Within s f f :=
  ⟨hf, .refl f, rfl, rfl, rfl, rfl, [], rfl, by simp⟩

theorem trans {t : State} (h₁ : s.Within t f g) (h₂ : t.Within s' g h) : s.Within s' f h where
  frame := h₂.frame
  grows := h₁.grows.trans h₂.grows
  module := h₂.module.trans h₁.module
  defined := h₂.defined.trans h₁.defined
  scope := h₂.scope.trans h₁.scope
  rejections := h₂.rejections.trans h₁.rejections
  symbols := by
    obtain ⟨new₁, hs₁, hown₁⟩ := h₁.symbols
    obtain ⟨new₂, hs₂, hown₂⟩ := h₂.symbols
    refine ⟨new₂ ++ new₁, by rw [hs₂, hs₁, List.append_assoc], ?_⟩
    intro p hp
    rcases List.mem_append.mp hp with hp | hp
    · rw [← h₁.grows.func]
      exact hown₂ p hp
    · exact hown₁ p hp

/-- A step that changes the frame only. -/
theorem withFrame (hs : s.Within s' f g) (hgrows : f.Extends h) : s.Within (s'.withFrame h) f h :=
  ⟨rfl, hgrows, hs.module, hs.defined, hs.scope, hs.rejections, hs.symbols⟩

end State.Within

theorem State.within_withFrame (hf : s.frame = some f) (hgrows : f.Extends g) :
    s.Within (s.withFrame g) f g :=
  (State.Within.refl hf).withFrame hgrows

theorem State.Emits.within (hs : s.Emits s') (hf : s.frame = some f) :
    ∃ g, f.Emits g ∧ s.Within s' f g := by
  obtain ⟨g, hfg, rfl⟩ := hs f hf
  exact ⟨g, hfg, State.within_withFrame hf hfg.toExtends⟩

theorem within_of_gives_visitOperand (hy : Gives (visitOperand want n) s y s')
    (hf : s.frame = some f) : ∃ g, f.Emits g ∧ s.Within s' f g :=
  (emits_of_gives_visitOperand (fun t _ => emits_of_gives_visit t) hy).within hf

/-- Lower a condition, end the block after it and go on with a new block. -/
theorem State.Within.branch {t s₁ : State} {cond : Option Node} {c : Value} {target : Nat}
    (ht : s.Within t f g) (hc : Gives (visitOperand .i1 cond) t c s₁) (hh : s₁.frame = some h)
    (hb : h.Filling i b) (term : Term) (htarget : f.blocks.length ≤ target) :
    s.Within (s₁.withFrame ((h.finish i b term).moveTo (some target))) f
      ((h.finish i b term).moveTo (some target)) := by
  obtain ⟨h', -, hs₁⟩ := within_of_gives_visitOperand hc ht.frame
  obtain rfl := Option.mem_unique hh hs₁.frame
  have hcond := ht.trans hs₁
  refine hcond.withFrame ((hcond.grows.trans (Frame.extends_finish hb term)).moveTo ?_)
  rintro _ ⟨⟩
  exact htarget

/-- End the block that is being filled and go on with a new block, or with none. -/
theorem State.Within.leave (hs : s.Within s' f g) (h : Frame) (hgh : g.Extends h)
    {next : Option Nat} (hnext : ∀ i, next = some i → f.blocks.length ≤ i) :
    s.Within (s'.withFrame (h.moveTo next)) f (h.moveTo next) :=
  hs.withFrame ((hs.grows.trans hgh).moveTo hnext)

/-- A local variable is a slot at the end of the block. -/
theorem State.Declares.within {x : Variable} (hx : s.Declares x s') (hf : s.frame = some f) :
    ∃ i b, f.Filling i b ∧ s' = s.declareLocal x f i b ∧
      s.Within s' f
        ((f.useName x.name).push i b (.alloca (f.freshName x.name) .i32 (sizeOfTag x.tag))) := by
  obtain ⟨i, b, hb, rfl⟩ := (State.declares_iff_of_frame hf).mp hx
  have hb' := hb.useName x.name
  refine ⟨i, b, hb, rfl, rfl, (Frame.extends_useName f x.name).trans (Frame.extends_push hb' _),
    rfl, rfl, rfl, rfl, [_], rfl, ?_⟩
  intro p hp
  obtain rfl := List.mem_singleton.mp hp
  exact ⟨_, rfl⟩

/-- What the proof about statements needs to know of a child. -/
def Stays (n : Option Node) : Prop :=
  ∀ t, n = some t → ∀ s v s' f, Gives (visit t) s v s' → s.frame = some f → ∃ g, s.Within s' f g

theorem Stays.within (hn : Stays n) (h : Gives (visitStatement n) s u s')
    (hf : s.frame = some f) : ∃ g, s.Within s' f g := by
  rcases gives_visitStatement.mp h with ⟨-, rfl⟩ | ⟨t, v, rfl, hv⟩
  · exact ⟨f, .refl hf⟩
  · exact hn t rfl s v s' f hv hf

theorem Stays.trans (hn : Stays n) {t : State} (ht : s.Within t f g)
    (hbody : Gives (visitStatement n) t u s') (hh : s'.frame = some h) : s.Within s' f h := by
  obtain ⟨h', hs'⟩ := hn.within hbody ht.frame
  obtain rfl := Option.mem_unique hh hs'.frame
  exact ht.trans hs'

theorem within_of_gives_visitStatements (hns : ∀ n ∈ ns, Stays n)
    (h : Gives (visitStatements ns) s u s') (hf : s.frame = some f) : ∃ g, s.Within s' f g := by
  induction ns generalizing s f with
  | nil =>
    obtain rfl := gives_visitStatements_nil.mp h
    exact ⟨f, .refl hf⟩
  | cons n ns ih =>
    rcases gives_visitStatements_cons.mp h with ⟨-, s₁, hn, hrest⟩ | ⟨-, rfl⟩
    · obtain ⟨g, hg⟩ := (hns n List.mem_cons_self).within hn hf
      obtain ⟨k, hk⟩ := ih (fun m hm => hns m (List.mem_cons_of_mem _ hm)) hrest hg.frame
      exact ⟨k, hg.trans hk⟩
    · exact ⟨f, hf, .refl f, rfl, rfl, rfl, rfl, [], rfl, by simp⟩

/-- A return ends a block behind the code of its value. -/
theorem finish_of_gives_return {l : Stamp} {value : Option Node} {v : Option Value}
    (hv : Gives (visit (.unary l .ret value)) s v s') (hf : s.frame = some f) :
    ∃ s₁ g i b t, f.Emits g ∧ s.Within s₁ f g ∧ g.Filling i b ∧ t.targets = [] ∧
      s' = s₁.withFrame (g.finish i b t) := by
  cases value with
  | none =>
    obtain ⟨-, hclose, -⟩ := gives_visit_return_none.mp hv
    obtain ⟨f', i, b, hf', hb, rfl⟩ := gives_close.mp hclose
    obtain rfl := Option.mem_unique hf hf'
    exact ⟨s, f, i, b, .ret none, .refl, .refl hf, hb, rfl, rfl⟩
  | some value =>
    obtain ⟨f', x, s₁, -, -, hx, hclose, -⟩ := gives_visit_return_some.mp hv
    obtain ⟨g, hemits, hs₁⟩ := within_of_gives_visitOperand hx hf
    obtain ⟨g', i, b, hg', hb, rfl⟩ := gives_close.mp hclose
    obtain rfl := Option.mem_unique hs₁.frame hg'
    exact ⟨s₁, g, i, b, .ret (some x), hemits, hs₁, hb, rfl, rfl⟩

/-- Lowering a statement only adds to the function under construction. -/
theorem within_of_gives_visit (t : Node) : Stays (some t) := by
  rintro _ ⟨⟩
  induction t using inside_ind with
  | outside t hnone =>
    intro s v s' f hv hf
    simp [hnone s v s' hv] at hf
  | expression t ht =>
    intro s v s' f hv hf
    obtain ⟨u, rfl⟩ := ht.value hv
    exact ((emits_of_gives_visit _ s u s' hv).within hf).imp fun _ h => h.2
  | block l items ih =>
    intro s v s' f hv hf
    obtain ⟨-, hitems, -⟩ := gives_visit_block.mp hv
    exact within_of_gives_visitStatements (fun n hn t ht => ih t (ht ▸ hn)) hitems hf
  | ret l value =>
    intro s v s' f hv hf
    obtain ⟨s₁, g, i, b, t, -, hs₁, hb, -, rfl⟩ := finish_of_gives_return hv hf
    exact ⟨_, hs₁.withFrame (hs₁.grows.trans (Frame.extends_finish hb t))⟩
  | declaration l form type names hform =>
    intro s v s' f hv hf
    obtain ⟨x, -, hx⟩ := declares_of_gives_visit hform hv hf
    obtain ⟨_, _, -, -, hw⟩ := hx.within hf
    exact ⟨_, hw⟩
  | ifThen l cond body ih =>
    intro s v s' f hv hf
    obtain ⟨f', c, s₁, g, i, b, s₂, h, hf', hc, hg, hb, hbody, hh, rfl, -⟩ :=
      gives_visit_ifThen.mp hv
    obtain rfl := Option.mem_unique hf hf'
    have hblocks := State.within_withFrame hf
      ((Frame.extends_addBlock f "if.then").trans (Frame.extends_addBlock _ "if.end"))
    have hend := Stays.trans ih (hblocks.branch hc hg hb _ (Nat.le_refl _)) hbody hh
    exact ⟨_, hend.leave _ (Frame.extends_endWith h _) (by simp)⟩
  | loop l cond body ih =>
    intro s v s' f hv hf
    obtain ⟨f', i, b, c, s₁, g, j, d, s₂, h, hf', hb, hc, hg, hd, hbody, hh, rfl, -⟩ :=
      gives_visit_while.mp hv
    obtain rfl := Option.mem_unique hf hf'
    have hblocks : f.Extends f.addLoop := ((Frame.extends_addBlock f "while.cond").trans
      (Frame.extends_addBlock _ "while.body")).trans (Frame.extends_addBlock _ "while.end")
    have hcond :=
      (State.within_withFrame hf hblocks).leave _ (Frame.extends_finish hb (.br f.blocks.length))
        fun i (hi : some f.blocks.length = some i) => Nat.le_of_eq (Option.some.inj hi)
    have hend := Stays.trans ih (hcond.branch hc hg hd _ (Nat.le_succ _)) hbody hh
    exact ⟨_, hend.leave _ (Frame.extends_endWith h _) (by simp)⟩
  | ifThenElse l cond body body' ih ih' =>
    intro s v s' f hv hf
    obtain ⟨f', c, s₁, g, i, b, s₂, h, s₃, k, hf', hc, hg, hb, hthen, hh, -, helse,
        hk, -, rfl, -⟩ :=
      gives_visit_ifThenElse.mp hv
    obtain rfl := Option.mem_unique hf hf'
    have hblocks := State.within_withFrame hf
      ((Frame.extends_addBlock f "if.then").trans (Frame.extends_addBlock _ "if.else"))
    have hs₂ := Stays.trans ih (hblocks.branch hc hg hb _ (Nat.le_refl _)) hthen hh
    have hs₃ := Stays.trans ih' (hs₂.leave _ (.refl h) (by simp)) helse hk
    exact ⟨_, hs₃.leave _ (.refl k) (by simp)⟩

theorem within_of_gives_visitStatement (h : Gives (visitStatement n) s u s')
    (hf : s.frame = some f) (hg : s'.frame = some g) : s.Within s' f g :=
  Stays.trans (fun t _ => within_of_gives_visit t t rfl) (.refl hf) h hg

end Lowering

end CSubset
