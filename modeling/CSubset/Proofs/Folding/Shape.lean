import CSubset.IR.Flow
import CSubset.Proofs.Related

/-!
# The shape of a module

The shape of an instruction or of the end of a block has types in the place of operands. Two modules
agree in shape up to arithmetic (`Module.Thinned`) if they differ only in operands, in the numbers
of instructions, and in sums, differences, products, quotients and remainders that the second one
lacks: globals, signatures, labels, ends of blocks with their targets, and all other instructions in
their order are the same.

Bodies that agree in shape have the same control flow, so none or both of them have a defect
(`defect?_thinned`).
-/

namespace CSubset.IR

/-! ## Shapes -/

/-- An instruction with types for operands. -/
inductive OpShape where
  | alloca (name : String) (elem : Ty) (align : Nat)
  | load (elem slot : Ty)
  | store (value slot : Ty)
  | binary (op : BinOp) (left right : Ty)
  | icmp (pred : Pred) (left right : Ty)
  | zext (value target : Ty)
  | call (callee : String) (ret : Ty) (args : List Ty)
  deriving DecidableEq, Repr

def Op.shape : Op → OpShape
  | .alloca name elem align => .alloca name elem align
  | .load elem slot => .load elem slot.ty
  | .store value slot => .store value.ty slot.ty
  | .binary op left right => .binary op left.ty right.ty
  | .icmp pred left right => .icmp pred left.ty right.ty
  | .zext value target => .zext value.ty target
  | .call callee ret args => .call callee ret (args.map Value.ty)

/-- The type of the result. -/
def OpShape.ty : OpShape → Ty
  | .alloca _ elem _ => .ptr elem
  | .load elem _ => elem
  | .store _ _ => .void
  | .binary _ left _ => left
  | .icmp _ _ _ => .i1
  | .zext _ target => target
  | .call _ ret _ => ret

theorem Op.ty_shape (op : Op) : op.shape.ty = op.ty := by
  cases op <;> rfl

/-- Whether an instruction is a sum, a difference, a product, a quotient or a remainder. -/
def OpShape.isArithmetic : OpShape → Bool
  | .binary .add _ _ | .binary .sub _ _ | .binary .mul _ _ | .binary .sdiv _ _
  | .binary .srem _ _ => true
  | _ => false

/-- The end of a block with types for operands. -/
inductive TermShape where
  | ret (value : Option Ty)
  | br (target : Nat)
  | condBr (cond : Ty) (ifTrue ifFalse : Nat)
  deriving DecidableEq, Repr

def Term.shape : Term → TermShape
  | .ret value => .ret (value.map Value.ty)
  | .br target => .br target
  | .condBr cond ifTrue ifFalse => .condBr cond.ty ifTrue ifFalse

def TermShape.targets : TermShape → List Nat
  | .ret _ => []
  | .br target => [target]
  | .condBr _ ifTrue ifFalse => [ifTrue, ifFalse]

theorem Term.targets_shape (t : Term) : t.shape.targets = t.targets := by
  cases t <;> rfl

/-! ## Agreement up to arithmetic -/

/-- The second list is the first without some members that may be dropped. -/
inductive Deletes {α : Type} (droppable : α → Bool) : List α → List α → Prop
  | nil : Deletes droppable [] []
  | keep (x : α) {xs ys : List α} (h : Deletes droppable xs ys) : Deletes droppable
    (x :: xs) (x :: ys)
  | drop (x : α) {xs ys : List α} (hx : droppable x = true) (h : Deletes droppable xs ys) :
    Deletes droppable (x :: xs) ys

section Deletes

variable {α : Type} {droppable : α → Bool} {xs ys : List α}

theorem Deletes.append {xs' ys' : List α} (h : Deletes droppable xs ys)
    (h' : Deletes droppable xs' ys') : Deletes droppable (xs ++ xs') (ys ++ ys') := by
  induction h with
  | nil => exact h'
  | keep x _ ih => exact .keep x ih
  | drop x hx _ ih => exact .drop x hx ih

/-- One more member at the end of both. -/
theorem Deletes.concat (h : Deletes droppable xs ys) (x : α) :
    Deletes droppable (xs ++ [x]) (ys ++ [x]) :=
  h.append (.keep x .nil)

/-- One more member at the end of the first that the second lacks. -/
theorem Deletes.concat_drop (h : Deletes droppable xs ys) {x : α} (hx : droppable x = true) :
    Deletes droppable (xs ++ [x]) ys := by
  have h' := h.append (.drop x hx .nil)
  rwa [List.append_nil] at h'

end Deletes

/-- The shapes of the instructions of a block. -/
def Block.shapes (b : Block) : List OpShape := b.instrs.map (·.op.shape)

/-- Block `c` has the label, the end and the instructions of `b` but for some arithmetic. -/
structure Block.Thinned (b c : Block) : Prop where
  label : c.label = b.label
  term : c.term.map Term.shape = b.term.map Term.shape
  shapes : Deletes OpShape.isArithmetic b.shapes c.shapes

namespace Block.Thinned

variable {b c : Block} {op op' : Op}

/-- An instruction of the same shape is appended to both. -/
theorem concat (h : b.Thinned c) (hop : op'.shape = op.shape) (n n' : Nat) :
    Block.Thinned { b with instrs := b.instrs ++ [⟨n, op⟩] } { c with instrs := c.instrs ++
      [⟨n', op'⟩] } := by
  refine ⟨h.label, h.term, ?_⟩
  show Deletes _ ((b.instrs ++ [_]).map _) ((c.instrs ++ [_]).map _)
  rw [List.map_append, List.map_append]
  show Deletes _ (b.shapes ++ [op.shape]) (c.shapes ++ [op'.shape])
  rw [hop]
  exact h.shapes.concat _

/-- Arithmetic is appended to the first alone. -/
theorem concat_left (h : b.Thinned c) (hop : op.shape.isArithmetic = true) (n : Nat) :
    Block.Thinned { b with instrs := b.instrs ++ [⟨n, op⟩] } c := by
  refine ⟨h.label, h.term, ?_⟩
  show Deletes _ ((b.instrs ++ [_]).map _) _
  rw [List.map_append]
  exact h.shapes.concat_drop hop

end Block.Thinned

structure Func.Thinned (f g : Func) : Prop where
  name : g.name = f.name
  ret : g.ret = f.ret
  params : g.params = f.params
  blocks : List.Forall₂ Block.Thinned f.blocks g.blocks

structure Module.Thinned (m m' : Module) : Prop where
  sourceName : m'.sourceName = m.sourceName
  globals : m'.globals = m.globals
  funcs : List.Forall₂ Func.Thinned m.funcs m'.funcs

/-! ## Control flow -/

namespace Flow

variable {bs cs : List Block}

theorem endOf_thinned (h : List.Forall₂ Block.Thinned bs cs) : endOf cs = endOf bs := by
  have htargets : ∀ t : Option Term,
      t.map Term.targets = (t.map Term.shape).map TermShape.targets := by
    intro t
    cases t with
    | none => rfl
    | some t => exact congrArg some t.targets_shape.symm
  funext i
  have hrel := rel_getElem? h i
  unfold endOf
  generalize bs[i]? = b at hrel
  generalize cs[i]? = c at hrel
  cases hrel with
  | none => rfl
  | some hbc =>
    show Option.map Term.targets _ = Option.map Term.targets _
    rw [htargets, htargets, hbc.term]

theorem labelOf_thinned (h : List.Forall₂ Block.Thinned bs cs) : labelOf cs = labelOf bs := by
  funext i
  have hrel := rel_getElem? h i
  unfold labelOf
  generalize bs[i]? = b at hrel
  generalize cs[i]? = c at hrel
  cases hrel with
  | none => rfl
  | some hbc => exact hbc.label

/-- Bodies that agree in shape have the same defect: the check sees their ends and labels only. -/
theorem defect?_thinned (h : List.Forall₂ Block.Thinned bs cs) : defect? cs = defect? bs := by
  rw [defect?, defect?, h.length_eq, endOf_thinned h, labelOf_thinned h]

end Flow

end CSubset.IR
