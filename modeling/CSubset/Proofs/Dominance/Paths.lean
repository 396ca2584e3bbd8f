import CSubset.Proofs.Lowering.Growth

/-!
# Paths through a body and dominance

A path starts at the first instruction of the first block, passes instructions in their order, and
goes on from the end of a block with one of the blocks that the end names. A body has dominance
(`UsesDominated`) if every path to a use of a result has passed the instruction that computes it.

Dominance is shown by a certificate (`Certificate`): a list of results for each block such that what
a block claims is there at the end of each block before it, and every use finds its result among
those claimed or computed in the block above it. It is refuted by one path to a use that has missed
the instruction (`Stray`); both stay true when the body grows.
-/

namespace CSubset.IR

variable {claims : Nat → List Nat} {blocks bs cs : List Block} {i k n : Nat}

/-! ## Uses -/

/-- The instruction whose result a value is. -/
def Value.number? : Value → Option Nat
  | .result n _ => some n
  | _ => none

def Op.operands : Op → List Value
  | .alloca _ _ _ => []
  | .load _ slot => [slot]
  | .store value slot => [value, slot]
  | .binary _ left right => [left, right]
  | .icmp _ left right => [left, right]
  | .zext value _ => [value]
  | .call _ _ args => args

def Term.operands : Term → List Value
  | .ret value => value.toList
  | .br _ => []
  | .condBr cond _ _ => [cond]

/-- The instructions whose results an instruction uses. -/
def Op.uses (op : Op) : List Nat := op.operands.filterMap Value.number?

def Term.uses (t : Term) : List Nat := t.operands.filterMap Value.number?

/-- What stands at position `k` of block `i` uses the result of instruction `n`. The end of a block
stands behind its last instruction. -/
inductive UsesAt (blocks : List Block) (i k n : Nat) : Prop where
  | instr {x : Instr} (hx : instrAt? blocks i k = some x) (hn : n ∈ x.op.uses)
  | term {b : Block} {t : Term} (hb : blocks[i]? = some b) (hk : k = b.instrs.length)
    (ht : b.term = some t)
    (hn : n ∈ t.uses)

/-! ## Paths -/

/-- There is a path to position `k` of block `i` that passes the instructions with these numbers, in
this order. -/
inductive Path (blocks : List Block) : Nat → Nat → List Nat → Prop where
  | start : Path blocks 0 0 []
  | pass {i k : Nat} {passed : List Nat} {x : Instr} (h : Path blocks i k passed)
    (hx : instrAt? blocks i k = some x) :
    Path blocks i (k + 1) (passed ++ [x.number])
  | jump {i : Nat} {passed : List Nat} {b : Block} {t : Term} {j : Nat}
    (h : Path blocks i b.instrs.length passed)
    (hb : blocks[i]? = some b) (ht : b.term = some t) (hj : j ∈ t.targets) : Path blocks j 0 passed

/-- Every path to a use of a result has passed the instruction that computes the result. -/
def UsesDominated (blocks : List Block) : Prop :=
  ∀ i k n passed, UsesAt blocks i k n → Path blocks i k passed → n ∈ passed

/-- Some path to a use has missed the instruction that computes what is used. -/
def Stray (blocks : List Block) : Prop :=
  ∃ i k n passed, UsesAt blocks i k n ∧ Path blocks i k passed ∧ n ∉ passed

theorem Stray.not_usesDominated (h : Stray blocks) : ¬UsesDominated blocks := by
  obtain ⟨i, k, n, passed, huse, hpath, hn⟩ := h
  exact fun hdom => hn (hdom i k n passed huse hpath)

section Grow

variable {bs cs : List Block} {i k n : Nat} {passed : List Nat}

theorem Path.grow (hpath : Path bs i k passed) (h : Grow bs cs) : Path cs i k passed := by
  induction hpath with
  | start => exact .start
  | pass _ hx ih => exact .pass ih (h.instrAt? hx)
  | jump _ hb ht hj ih => exact .jump ih (h.closed hb ht) ht hj

theorem UsesAt.grow (huse : UsesAt bs i k n) (h : Grow bs cs) : UsesAt cs i k n := by
  cases huse with
  | instr hx hn => exact .instr (h.instrAt? hx) hn
  | term hb hk ht hn => exact .term (h.closed hb ht) hk ht hn

theorem Stray.grow (hstray : Stray bs) (h : Grow bs cs) : Stray cs := by
  obtain ⟨i, k, n, passed, huse, hpath, hn⟩ := hstray
  exact ⟨i, k, n, passed, huse.grow h, hpath.grow h, hn⟩

/-- A path passes instructions of the body only. -/
theorem Path.instrAt? (hpath : Path bs i k passed) (hn : n ∈ passed) :
    ∃ j l x, IR.instrAt? bs j l = some x ∧ x.number = n := by
  induction hpath with
  | start => cases hn
  | @pass i k passed x _ hx ih =>
    rcases List.mem_append.mp hn with hn | hn
    · exact ih hn
    · exact ⟨i, k, x, hx, (List.mem_singleton.mp hn).symm⟩
  | jump _ _ _ _ ih => exact ih hn

end Grow

/-! ## Certificates

To claim slots for each block is enough to bound all paths, since every edge is checked on its
own. -/

/-- At position `k` of block `i` the result of `n` is there: the block claims it, or computes it
above. -/
def Available (claims : Nat → List Nat) (blocks : List Block) (i k n : Nat) : Prop :=
  n ∈ claims i ∨ ∃ l x, l < k ∧ instrAt? blocks i l = some x ∧ x.number = n

/-- What each block claims is there whenever the block is entered, and what is used is there. -/
structure Certificate (claims : Nat → List Nat) (blocks : List Block) : Prop where
  start : claims 0 = []
  edges : ∀ i b t j, blocks[i]? = some b → b.term = some t → j ∈ t.targets →
    j < blocks.length ∧ ∀ n ∈ claims j, Available claims blocks i b.instrs.length n
  uses : ∀ i k n, UsesAt blocks i k n → Available claims blocks i k n

/-- What is available has been passed, whichever way control took. -/
theorem Certificate.mem_of_path (h : Certificate claims blocks) {passed : List Nat}
    (hpath : Path blocks i k passed) (hn : Available claims blocks i k n) : n ∈ passed := by
  induction hpath with
  | start =>
    rcases hn with hn | ⟨l, x, hl, -⟩
    · rw [h.start] at hn
      cases hn
    · exact absurd hl (Nat.not_lt_zero l)
  | @pass i k passed x _ hx ih =>
    rcases hn with hn | ⟨l, y, hl, hy, hyn⟩
    · exact List.mem_append_left _ (ih (.inl hn))
    · rcases Nat.lt_succ_iff_lt_or_eq.mp hl with hl | rfl
      · exact List.mem_append_left _ (ih (.inr ⟨l, y, hl, hy, hyn⟩))
      · obtain rfl : x = y := by simpa [hx] using hy
        exact List.mem_append_right _ (by simp [hyn])
  | @jump i passed b t j _ hb ht hj ih =>
    rcases hn with hn | ⟨l, x, hl, -⟩
    · exact ih ((h.edges i b t j hb ht hj).2 n hn)
    · exact absurd hl (Nat.not_lt_zero l)

theorem Certificate.usesDominated (h : Certificate claims blocks) : UsesDominated blocks :=
  fun _ _ n _ huse hpath => h.mem_of_path hpath (h.uses _ _ n huse)

/-- What is there stays there when the body grows, also further down. -/
theorem Available.grow {l : Nat} (hn : Available claims bs i k n) (h : Grow bs cs) (hkl : k ≤ l) :
    Available claims cs i l n := by
  rcases hn with hn | ⟨m, x, hm, hx, hxn⟩
  · exact .inl hn
  · exact .inr ⟨m, x, Nat.lt_of_lt_of_le hm hkl, h.instrAt? hx, hxn⟩

/-- A certificate for a body that has grown: only the new ends and the new uses have to be looked
at. -/
theorem Certificate.grow (hcert : Certificate claims bs) (hgrow : Grow bs cs)
    (hlength : bs.length ≤ cs.length)
    (hedges : ∀ i b t j, cs[i]? = some b → b.term = some t → j ∈ t.targets → bs[i]? = some b ∨
      (j < cs.length ∧ ∀ n ∈ claims j, Available claims cs i b.instrs.length n))
    (huses : ∀ i k n, UsesAt cs i k n → UsesAt bs i k n ∨ Available claims cs i k n) :
    Certificate claims cs := by
  refine ⟨hcert.start, ?_, ?_⟩
  · intro i b t j hb ht hj
    rcases hedges i b t j hb ht hj with hold | hnew
    · obtain ⟨hlt, hclaims⟩ := hcert.edges i b t j hold ht hj
      exact ⟨Nat.lt_of_lt_of_le hlt hlength, fun n hn => (hclaims n hn).grow hgrow (Nat.le_refl _)⟩
    · exact hnew
  · intro i k n huse
    rcases huses i k n huse with hold | hnew
    · exact (hcert.uses i k n hold).grow hgrow (Nat.le_refl _)
    · exact hnew

/-- What blocks claim that are still to come is free. -/
theorem Certificate.congr {claims' : Nat → List Nat} (hcert : Certificate claims blocks)
    (hblocks : 0 < blocks.length) (hsame : ∀ j < blocks.length, claims' j = claims j) :
    Certificate claims' blocks := by
  have havailable : ∀ {i k n}, i < blocks.length → Available claims blocks i k n →
      Available claims' blocks i k n := by
    intro i k n hi hn
    unfold Available
    rw [hsame i hi]
    exact hn
  have hlt : ∀ {i k x}, instrAt? blocks i k = some x → i < blocks.length := by
    intro i k x hx
    obtain ⟨b, hb, -⟩ := Option.bind_eq_some_iff.mp hx
    exact (List.getElem?_eq_some_iff.mp hb).1
  refine ⟨(hsame 0 hblocks).trans hcert.start, ?_, ?_⟩
  · intro i b t j hb ht hj
    obtain ⟨hjlt, hclaims⟩ := hcert.edges i b t j hb ht hj
    refine ⟨hjlt, fun n hn => havailable (List.getElem?_eq_some_iff.mp hb).1 (hclaims n ?_)⟩
    rwa [← hsame j hjlt]
  · intro i k n huse
    have hi : i < blocks.length := by
      cases huse with
      | instr hx _ => exact hlt hx
      | term hb _ _ _ => exact (List.getElem?_eq_some_iff.mp hb).1
    exact havailable hi (hcert.uses i k n huse)

end CSubset.IR
