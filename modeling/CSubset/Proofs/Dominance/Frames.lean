import CSubset.Proofs.Dominance.Paths

/-!
# Dominance while a body is built

What holds at the block that is being filled: a result is there (`Frame.Here`), or a path gets there
that has passed certain instructions only (`Frame.Reached`). One lemma for each primitive change of
a frame says what becomes of the certificate and of the paths.
-/

namespace CSubset.Lowering

open IR

variable {claims : Nat → List Nat} {f : Frame} {i k n : Nat} {b : Block} {op : Op} {t : Term}
  {passed : List Nat}

/-- At the end of the block that is being filled the result of `n` is there. -/
def Frame.Here (f : Frame) (claims : Nat → List Nat) (n : Nat) : Prop :=
  ∃ i b, f.Filling i b ∧ Available claims f.blocks i b.instrs.length n

/-- A path that has passed these instructions gets to the end of the block that is being filled. -/
def Frame.Reached (f : Frame) (passed : List Nat) : Prop :=
  ∃ i b, f.Filling i b ∧ Path f.blocks i b.instrs.length passed

theorem Frame.Here.available (hn : f.Here claims n) (hb : f.Filling i b) :
    Available claims f.blocks i b.instrs.length n := by
  obtain ⟨j, c, hc, hn⟩ := hn
  obtain ⟨rfl, rfl⟩ := hc.unique hb
  exact hn

theorem Frame.Reached.path (h : f.Reached passed) (hb : f.Filling i b) :
    Path f.blocks i b.instrs.length passed := by
  obtain ⟨j, c, hc, hpath⟩ := h
  obtain ⟨rfl, rfl⟩ := hc.unique hb
  exact hpath

end CSubset.Lowering

namespace CSubset.IR.Certificate

open Lowering

variable {claims : Nat → List Nat} {f : Frame} {i : Nat} {b : Block} {op : Op} {t : Term}

/-! ## Certificates -/

/-- A new instruction uses results that are there. -/
theorem push (hcert : Certificate claims f.blocks) (hb : f.Filling i b)
    (huses : ∀ n ∈ op.uses, f.Here claims n) : Certificate claims (f.push i b op).blocks := by
  have hgrow := (Frame.extends_push hb op).grow
  refine hcert.grow hgrow (Frame.extends_push hb op).length ?_ ?_
  · exact fun _ _ _ _ hc ht _ => .inl (Frame.closed_push hb hc ht)
  · intro j k n huse
    cases huse with
    | instr hx hn =>
      rcases (Frame.instrAt?_push hb).mp hx with hx | ⟨rfl, rfl, rfl⟩
      · exact .inl (.instr hx hn)
      · exact .inr (((huses n hn).available hb).grow hgrow (Nat.le_refl _))
    | term hc hk ht hn => exact .inl (.term (Frame.closed_push hb hc ht) hk ht hn)

/-- The end of a block uses results that are there, and so are those that its targets claim. -/
theorem finish (hcert : Certificate claims f.blocks) (hb : f.Filling i b)
    (huses : ∀ n ∈ t.uses, f.Here claims n)
    (htargets : ∀ j ∈ t.targets, j < f.blocks.length ∧ ∀ n ∈ claims j, f.Here claims n) :
    Certificate claims (f.finish i b t).blocks := by
  have hgrow := (Frame.extends_finish hb t).grow
  have hlength := (Frame.extends_finish hb t).length
  have hhere : ∀ {n}, f.Here claims n →
      Available claims (f.finish i b t).blocks i b.instrs.length n :=
    fun hn => (hn.available hb).grow hgrow (Nat.le_refl _)
  refine hcert.grow hgrow hlength ?_ ?_
  · intro j c e k hc he hk
    rcases Frame.closed_finish hb hc he with ⟨rfl, rfl, rfl⟩ | hc
    · obtain ⟨hlt, hclaims⟩ := htargets k hk
      exact .inr ⟨Nat.lt_of_lt_of_le hlt hlength, fun n hn => hhere (hclaims n hn)⟩
    · exact .inl hc
  · intro j k n huse
    cases huse with
    | instr hx hn =>
      rw [Frame.instrAt?_finish hb] at hx
      exact .inl (.instr hx hn)
    | term hc hk he hn =>
      rcases Frame.closed_finish hb hc he with ⟨rfl, rfl, rfl⟩ | hc
      · rw [hk]
        exact .inr (hhere (huses n hn))
      · exact .inl (.term hc hk he hn)

theorem addBlock (hcert : Certificate claims f.blocks) (base : String) :
    Certificate claims (f.addBlock base).blocks := by
  have hextends := Frame.extends_addBlock f base
  refine hcert.grow hextends.grow hextends.length ?_ ?_
  · exact fun _ _ _ _ hc ht _ => .inl (Frame.closed_addBlock hc ht)
  · intro j k n huse
    cases huse with
    | instr hx hn =>
      rw [Frame.instrAt?_addBlock] at hx
      exact .inl (.instr hx hn)
    | term hc hk ht hn => exact .inl (.term (Frame.closed_addBlock hc ht) hk ht hn)

end CSubset.IR.Certificate

namespace CSubset.Lowering

open IR

variable {claims : Nat → List Nat} {f g : Frame} {i k n : Nat} {b : Block} {t : Term}
  {passed : List Nat}

/-! ## Paths -/

theorem Frame.Reached.below (hf : f.Numbered) (hpath : f.Reached passed) :
    ∀ n ∈ passed, n < f.count := by
  intro n hn
  obtain ⟨i, b, -, hpath⟩ := hpath
  obtain ⟨j, l, x, hx, rfl⟩ := hpath.instrAt? hn
  exact hf.below j l x hx

/-- A path goes on through an instruction that is appended. -/
theorem Frame.Reached.push (hpath : f.Reached passed) (hb : f.Filling i b) (op : Op) :
    (f.push i b op).Reached (passed ++ [f.count]) := by
  have hx : instrAt? (f.push i b op).blocks i b.instrs.length = some ⟨f.count, op⟩ :=
    (Frame.instrAt?_push hb).mpr (.inr ⟨rfl, rfl, rfl⟩)
  have hpass := ((hpath.path hb).grow (Frame.extends_push hb op).grow).pass hx
  exact ⟨i, _, hb.push op, by simpa using hpass⟩

/-- A path gets here that has missed instruction `n` of the body. -/
def Frame.Missed (f : Frame) (n : Nat) : Prop :=
  n < f.count ∧ ∃ passed, f.Reached passed ∧ n ∉ passed

theorem Frame.Missed.push (hn : f.Missed n) (hb : f.Filling i b) (op : Op) :
    (f.push i b op).Missed n := by
  obtain ⟨hlt, passed, hpath, hmiss⟩ := hn
  refine ⟨Nat.lt_succ_of_lt hlt, _, hpath.push hb op, ?_⟩
  rw [List.mem_append, List.mem_singleton, not_or]
  exact ⟨hmiss, Nat.ne_of_lt hlt⟩

theorem Frame.Here.push (hn : f.Here claims n) (hb : f.Filling i b) (op : Op) :
    (f.push i b op).Here claims n := by
  refine ⟨i, _, hb.push op, (hn.available hb).grow (Frame.extends_push hb op).grow ?_⟩
  simp

/-- The result of an instruction is there behind it. -/
theorem Frame.Filling.here_push (hb : f.Filling i b) (op : Op) :
    (f.push i b op).Here claims f.count := by
  refine ⟨i, _, hb.push op, .inr ⟨b.instrs.length, ⟨f.count, op⟩, by simp, ?_, rfl⟩⟩
  exact (Frame.instrAt?_push hb).mpr (.inr ⟨rfl, rfl, rfl⟩)

/-- A path goes on with each target of the end that the open block has been given. -/
theorem Frame.Reached.finish (hpath : f.Reached passed) (hb : f.Filling i b) (hk : k ∈ t.targets) :
    Path (f.finish i b t).blocks k 0 passed := by
  have hblock : (f.finish i b t).blocks[i]? = some { b with term := some t } := by
    simp [Frame.finish, hb.lt]
  exact .jump (b := { b with term := some t })
    ((hpath.path hb).grow (Frame.extends_finish hb t).grow) hblock rfl hk

theorem Frame.Waits.reached (hk : f.Waits k) (hpath : Path f.blocks k 0 passed) :
    (f.moveTo (some k)).Reached passed := by
  obtain ⟨label, hfilling⟩ := hk.filling
  exact ⟨k, _, hfilling, hpath⟩

/-- At the start of a block just what it claims is there. -/
theorem Frame.Waits.here_iff (hk : f.Waits k) :
    (f.moveTo (some k)).Here claims n ↔ n ∈ claims k := by
  obtain ⟨label, hfilling⟩ := hk.filling
  constructor
  · intro hn
    rcases hn.available hfilling with hn | ⟨l, x, hl, -⟩
    · exact hn
    · exact absurd hl (Nat.not_lt_zero l)
  · exact fun hn => ⟨k, _, hfilling, .inl hn⟩

/-! ## New blocks -/

theorem Frame.Reached.isOpen (hpath : f.Reached passed) : f.isOpen = true := by
  obtain ⟨i, b, hb, -⟩ := hpath
  exact Frame.isOpen_iff.mpr ⟨i, b, hb⟩

theorem Frame.here_addBlock (hb : f.Filling i b) {base : String} :
    (f.addBlock base).Here claims n ↔ f.Here claims n := by
  have hsame : Available claims (f.addBlock base).blocks i b.instrs.length n ↔
      Available claims f.blocks i b.instrs.length n := by
    simp [Available, Frame.instrAt?_addBlock]
  constructor
  · exact fun hn => ⟨i, b, hb, hsame.mp (hn.available (hb.addBlock base))⟩
  · exact fun hn => ⟨i, b, hb.addBlock base, hsame.mpr (hn.available hb)⟩

theorem Frame.Reached.addBlock (hpath : f.Reached passed) (base : String) :
    (f.addBlock base).Reached passed := by
  obtain ⟨i, b, hb, hpath⟩ := hpath
  exact ⟨i, b, hb.addBlock base, hpath.grow (Frame.extends_addBlock f base).grow⟩

/-- What blocks claim that are still to come is free. -/
theorem Frame.here_congr {claims' : Nat → List Nat}
    (hsame : ∀ j < f.blocks.length, claims' j = claims j) : f.Here claims' n ↔ f.Here claims n := by
  have havailable : ∀ {i b}, f.Filling i b → (Available claims' f.blocks i b.instrs.length n ↔
      Available claims f.blocks i b.instrs.length n) := by
    intro i b hb
    unfold Available
    rw [hsame i hb.lt]
  constructor
  · exact fun ⟨i, b, hb, hn⟩ => ⟨i, b, hb, (havailable hb).mp hn⟩
  · exact fun ⟨i, b, hb, hn⟩ => ⟨i, b, hb, (havailable hb).mpr hn⟩

/-- The results that are there at the end of the block that is being filled. -/
def Frame.stock (f : Frame) (claims : Nat → List Nat) : List Nat :=
  match f.cursor with
  | some i => claims i ++ ((f.blocks[i]?.map Block.instrs).getD []).map Instr.number
  | none => []

theorem Frame.mem_stock (hopen : f.isOpen = true) : n ∈ f.stock claims ↔ f.Here claims n := by
  obtain ⟨i, b, hb⟩ := Frame.isOpen_iff.mp hopen
  have hinstrs : ∀ l, instrAt? f.blocks i l = b.instrs[l]? := by
    intro l
    rw [instrAt?, hb.block]
    rfl
  have hstock : n ∈ f.stock claims ↔ n ∈ claims i ∨ ∃ x ∈ b.instrs, x.number = n := by
    simp [Frame.stock, hb.cursor, hb.block]
  rw [hstock]
  constructor
  · rintro (hn | ⟨x, hx, rfl⟩)
    · exact ⟨i, b, hb, .inl hn⟩
    · obtain ⟨l, hl, rfl⟩ := List.getElem_of_mem hx
      exact ⟨i, b, hb, .inr ⟨l, _, hl, by simp [hinstrs], rfl⟩⟩
  · intro hn
    rcases hn.available hb with hn | ⟨l, x, -, hx, rfl⟩
    · exact .inl hn
    · exact .inr ⟨x, List.mem_of_getElem? ((hinstrs l).symm.trans hx), rfl⟩

/-- Claims for a body that goes on with new blocks: each of them claims what is there now. -/
def Frame.inherit (f : Frame) (claims : Nat → List Nat) (j : Nat) : List Nat :=
  if j < f.blocks.length then claims j else f.stock claims

theorem Frame.inherit_of_lt : ∀ j < f.blocks.length, f.inherit claims j = claims j :=
  fun _ hj => if_pos hj

theorem Frame.mem_inherit (hopen : f.isOpen = true) (hj : f.blocks.length ≤ k) :
    n ∈ f.inherit claims k ↔ f.Here claims n := by
  rw [Frame.inherit, if_neg (Nat.not_lt.mpr hj), Frame.mem_stock hopen]

end CSubset.Lowering
