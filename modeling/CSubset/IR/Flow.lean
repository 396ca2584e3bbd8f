import CSubset.IR.Module

/-!
# Control flow of a body

A body is sound if each of its blocks has an end and can be reached from the first. The search marks
a block when it is first met. Its work list may hold a block many times; it ends since only the
blocks behind a newly marked one are added to the list.

The check knows nothing about instructions: it works on blocks of any type, of which it is told
where their ends lead. An end may lead to any number of blocks. The blocks of a body are known by
their places (`defect?`).
-/

namespace CSubset.IR.Flow

section Graph

variable {β : Type} [DecidableEq β]

/-- The blocks that may run after block `b`, if `ends` says where the ends of blocks lead. -/
def next (ends : β → Option (List β)) (b : β) : List β := (ends b).getD []

/-- What the search may still do for block `b`: nothing if it is in `seen`, else meet it and the
blocks behind it. -/
def share (ends : β → Option (List β)) (seen : List β) (b : β) : Nat :=
  if b ∈ seen then 0 else (next ends b).length + 1

/-- What the search may still do for all blocks. -/
def pending (ends : β → Option (List β)) (seen : List β) : List β → Nat
  | [] => 0
  | b :: blocks => share ends seen b + pending ends seen blocks

theorem share_cons_le (ends : β → Option (List β)) (seen : List β) (b c : β) :
    share ends (b :: seen) c ≤ share ends seen c := by
  unfold share
  by_cases hc : c ∈ seen
  · simp [hc]
  · rw [if_neg hc]
    split <;> omega

theorem pending_cons_le (ends : β → Option (List β)) (seen blocks : List β) (b : β) :
    pending ends (b :: seen) blocks ≤ pending ends seen blocks := by
  induction blocks with
  | nil => exact Nat.le_refl 0
  | cons c blocks ih => exact Nat.add_le_add (share_cons_le ends seen b c) ih

/-- Marking a block pays for the blocks behind it, which go to the work list. -/
theorem pending_cons_lt (ends : β → Option (List β)) {seen blocks : List β} {b : β}
    (hmem : b ∈ blocks) (hb : b ∉ seen) :
    pending ends (b :: seen) blocks + (next ends b).length < pending ends seen blocks := by
  induction blocks with
  | nil => cases hmem
  | cons c blocks ih =>
    rw [pending, pending]
    rcases List.mem_cons.mp hmem with rfl | hmem
    · have hrest := pending_cons_le ends seen blocks b
      have hnow : share ends seen b = (next ends b).length + 1 := if_neg hb
      have hthen : share ends (b :: seen) b = 0 := if_pos List.mem_cons_self
      omega
    · have hrest := ih hmem
      have hc := share_cons_le ends seen b c
      omega

-- The hypothesis `h` is used by `decreasing_by`, which the linter does not see.
set_option linter.unusedVariables false in
/-- The blocks that can be reached from those in `work` without passing one of `seen`, added to
`seen`. -/
def reach (blocks : List β) (ends : β → Option (List β)) (seen work : List β) : List β :=
  match work with
  | [] => seen
  | b :: work =>
    if h : b ∈ blocks ∧ b ∉ seen then reach blocks ends (b :: seen) (next ends b ++ work)
    else reach blocks ends seen work
termination_by pending ends seen blocks + work.length
decreasing_by
  · have hless := pending_cons_lt ends h.1 h.2
    rw [List.length_append, List.length_cons]
    omega
  · exact Nat.lt_succ_self _

end Graph

/-- Why a body is not sound, and which of its blocks is to blame. -/
inductive Defect (β : Type) where
  | openBlock (block : β)
  | unreachable (block : β)
  deriving DecidableEq, Repr

/-- The same defect, with its block under another name. -/
def Defect.map {β γ : Type} (name : β → γ) : Defect β → Defect γ
  | .openBlock b => .openBlock (name b)
  | .unreachable b => .unreachable (name b)

/-- The first block without an end, else the first one that cannot be reached from the front of the
list. -/
def firstDefect? {β : Type} [DecidableEq β] (blocks : List β) (ends : β → Option (List β)) :
    Option (Defect β) :=
  match blocks.find? fun b => (ends b).isNone with
  | some b => some (.openBlock b)
  | none =>
    let reached := reach blocks ends [] (blocks.take 1)
    (blocks.find? (· ∉ reached)).map .unreachable

/-- Where the end of block `i` of a body leads. -/
def endOf (blocks : List Block) (i : Nat) : Option (List Nat) :=
  blocks[i]?.bind fun b => b.term.map Term.targets

def labelOf (blocks : List Block) (i : Nat) : String := (blocks[i]?.map Block.label).getD ""

/-- The first defect of a body, with the label of the block. -/
def defect? (blocks : List Block) : Option (Defect String) :=
  (firstDefect? (List.range blocks.length) (endOf blocks)).map (Defect.map (labelOf blocks))

end CSubset.IR.Flow
