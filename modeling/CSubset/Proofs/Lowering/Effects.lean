import CSubset.Proofs.Lowering.Functions
import CSubset.Proofs.Tree.Nodes

/-!
# Effects of expressions

An expression is lowered to straight-line code. It is appended to the block that is being filled,
and nothing else in the state changes (`Frame.append`). In this code there is one call for each call
in the tree and one store for each assignment, in post-order: the arguments come before their call
and the value before its store (`effects_in_order`).

What a step appends is said by `State.Emitting`, with the effects in order. Loading and conversion
have none.
-/

namespace CSubset

open IR (Ty Value Op BinOp Instr Block Func)

variable {c : Node}

/-- What an instruction does besides computing a value. -/
inductive Effect where
  | call (callee : String)
  | store (slot : Option Value)
  deriving DecidableEq, Repr

/-- Calls and stores are what others can see. -/
def IR.Op.effect? : Op → Option Effect
  | .call callee _ _ => some (.call callee)
  | .store _ slot => some (.store (some slot))
  | _ => none

/-- The effects of code, in order. -/
def IR.effects (code : List Instr) : List Effect := code.filterMap (·.op.effect?)

theorem BinaryForm.effect?_instruction {form : BinaryForm} {ty : Ty} {op : Value → Value → Op}
    (hform : form.instruction? = some (ty, op)) (x y : Value) : (op x y).effect? = none := by
  unfold BinaryForm.instruction? at hform
  split at hform <;> simp only [Option.some.injEq, Prod.mk.injEq, reduceCtorEq] at hform <;>
    obtain ⟨-, rfl⟩ := hform <;> rfl

/-- In each call of the tree the arguments, if there are any, stand in a list. -/
def Node.ArgumentsListed (n : Node) : Prop :=
  ∀ stamp callee c, .unary stamp (.call callee) (some c) ∈ n.postorder → c.kind = .parameters

theorem Node.ArgumentsListed.child {n : Node} (h : n.ArgumentsListed) (hc : some c ∈ n.children) :
    c.ArgumentsListed :=
  fun stamp callee d hd => h stamp callee d (Tree.mem_postorder_of_child hc hd)

theorem Node.eq_parameters (h : c.kind = .parameters) :
    ∃ stamp items, c = .seq stamp .parameters items := by
  cases c with
  | seq stamp form items =>
    cases form with
    | parameters => exact ⟨stamp, items, rfl⟩
    | _ => cases h
  | leaf _ form => cases form <;> cases h
  | unary _ form _ => cases form <;> cases h
  | binary _ form _ _ => cases form <;> cases h
  | ternary _ form _ _ _ => cases form <;> cases h

namespace Lowering

variable {s s' t : State} {f g : Frame} {i : Nat} {b : Block} {stamp : Stamp} {callee : String}
  {form : BinaryForm} {left right : Option Node} {n : Node} {want : Ty} {x y : Value}

/-- The slot that the left side of an assignment stands for. -/
def State.target? (s : State) : Option Node → Option Value
  | some (.leaf _ (.names [x] _)) =>
    match s.symbol? x with
    | some (.var slot _) => some slot
    | _ => none
  | _ => none

/-- The effect of a node apart from those of its children. -/
def State.effect? (s : State) : Node → Option Effect
  | .unary _ (.call callee) _ => some (.call callee)
  | .binary _ .assign left _ => some (.store (s.target? left))
  | _ => none

theorem State.effect?_of_not_assign (hform : form ≠ .assign) :
    s.effect? (.binary stamp form left right) = none := by
  cases form with
  | assign => exact absurd rfl hform
  | _ => rfl

/-- The effects that the nodes of a tree ask for, children before their parent. -/
def State.effects (s : State) (ns : List Node) : List Effect := ns.filterMap s.effect?

theorem State.effects_append (s : State) (ns ms : List Node) :
    s.effects (ns ++ ms) = s.effects ns ++ s.effects ms :=
  List.filterMap_append

theorem State.effects_singleton (s : State) (n : Node) : s.effects [n] = (s.effect? n).toList := by
  cases h : s.effect? n <;> simp [State.effects, h]

theorem State.Resolves.target? {x : String} {slot : Value} (h : s.Resolves x slot) (stamp : Stamp)
    (stars : Int) : s.target? (some (.leaf stamp (.names [x] stars))) = some slot := by
  obtain ⟨owner, hsymbol, -⟩ := h
  simp only [State.target?, hsymbol]

/-! ## Code that is appended -/

/-- The frame with more code in block `i`, which was `b`. -/
def Frame.append (f : Frame) (i : Nat) (b : Block) (code : List Instr) : Frame :=
  { f with
    blocks := f.blocks.set i { b with instrs := b.instrs ++ code }
    count := f.count + code.length }

theorem Frame.append_nil (hb : f.Filling i b) : f.append i b [] = f := by
  have hset : f.blocks.set i b = f.blocks := by
    obtain ⟨hi, rfl⟩ := List.getElem?_eq_some_iff.mp hb.block
    exact List.set_getElem_self hi
  simp [Frame.append, hset]

theorem Frame.Filling.append (hb : f.Filling i b) (code : List Instr) :
    (f.append i b code).Filling i { b with instrs := b.instrs ++ code } :=
  ⟨hb.cursor, by simp [Frame.append, hb.lt], hb.isOpen⟩

theorem Frame.append_append (f : Frame) (i : Nat) (b : Block) (code code' : List Instr) :
    (f.append i b code).append i { b with instrs := b.instrs ++ code } code' = f.append i b
      (code ++ code') := by
  simp [Frame.append, Nat.add_assoc]

/-- Something can be appended. -/
def State.Ready (s : State) : Prop := ∃ f i b, s.frame = some f ∧ f.Filling i b

/-- Between the two states code with these effects was appended, and nothing else was changed. -/
def State.Emitting (s : State) (es : List Effect) (s' : State) : Prop :=
  ∃ f i b code, s.frame = some f ∧ f.Filling i b ∧ s' = s.withFrame (f.append i b code) ∧
    IR.effects code = es

namespace State.Emitting

variable {es es' : List Effect}

theorem refl (h : s.Ready) : s.Emitting [] s := by
  obtain ⟨f, i, b, hf, hb⟩ := h
  exact ⟨f, i, b, [], hf, hb, by rw [Frame.append_nil hb, State.withFrame_self hf], rfl⟩

theorem trans (h : s.Emitting es t) (h' : t.Emitting es' s') : s.Emitting (es ++ es') s' := by
  obtain ⟨f, i, b, code, hf, hb, rfl, rfl⟩ := h
  obtain ⟨g, j, c, code', hg, hc, rfl, rfl⟩ := h'
  obtain rfl := Option.some.inj hg
  obtain ⟨rfl, rfl⟩ := (hb.append code).unique hc
  refine ⟨f, i, b, code ++ code', hf, hb, ?_, List.filterMap_append⟩
  rw [State.withFrame_withFrame, Frame.append_append]

theorem ready (h : s.Emitting es s') : s'.Ready := by
  obtain ⟨f, i, b, code, hf, hb, rfl, -⟩ := h
  exact ⟨_, i, _, rfl, hb.append code⟩

theorem effects_eq (h : s.Emitting es s') : s'.effects = s.effects := by
  obtain ⟨f, i, b, code, hf, hb, rfl, -⟩ := h
  rfl

end State.Emitting

/-! ## Steps -/

theorem emitting_of_gives_emit {op : Op} {v : Value} (h : Gives (emit op) s v s') :
    s.Emitting op.effect?.toList s' := by
  obtain ⟨f, i, b, hf, hb, -, rfl⟩ := gives_emit.mp h
  refine ⟨f, i, b, [⟨f.count, op⟩], hf, hb, rfl, ?_⟩
  cases hop : op.effect? <;> simp [IR.effects, hop]

theorem emitting_of_gives_load {u : Value} (hs : s.Ready) (h : Gives (load u) s x s') :
    s.Emitting [] s' := by
  rcases gives_load.mp h with ⟨elem, -, h⟩ | ⟨-, -, rfl⟩
  · exact emitting_of_gives_emit h
  · exact .refl hs

theorem emitting_of_gives_coerce (hs : s.Ready) (h : Gives (coerce n x want) s y s') :
    s.Emitting [] s' := by
  rcases gives_coerce.mp h with ⟨-, -, rfl⟩ | ⟨-, -, h⟩ | ⟨-, -, h⟩
  · exact .refl hs
  · exact emitting_of_gives_emit h
  · exact emitting_of_gives_emit h

/-- If lowering the tree has a value, it appends code with the effects of the tree. -/
def InOrder (n : Node) : Prop :=
  ∀ s u s', s.Ready → Gives (visit n) s (some u) s' → s.Emitting (s.effects n.postorder) s'

theorem emitting_of_gives_visitOperand {n : Option Node} (hn : ∀ t, n = some t → InOrder t)
    (hs : s.Ready) (h : Gives (visitOperand want n) s y s') :
    s.Emitting (s.effects (Tree.postorderChild n)) s' := by
  obtain ⟨t, u, s₁, x, s₂, rfl, hu, hx, hy⟩ := gives_visitOperand.mp h
  have hvisit := hn t rfl s u s₁ hs hu
  have hload := hvisit.trans (emitting_of_gives_load hvisit.ready hx)
  have hcoerce := hload.trans (emitting_of_gives_coerce hload.ready hy)
  rwa [List.append_nil, List.append_nil] at hcoerce

theorem emitting_of_gives_visitOperands {types : List Ty} {ns : List (Option Node)}
    {ys : List Value} (hns : ∀ t, some t ∈ ns → InOrder t) (hs : s.Ready)
    (h : Gives (visitOperands types ns) s ys s') :
    s.Emitting (s.effects (Tree.postorderItems ns)) s' := by
  induction ns generalizing types s ys with
  | nil =>
    obtain ⟨-, rfl⟩ := gives_visitOperands_nil.mp h
    exact .refl hs
  | cons n ns ih =>
    obtain ⟨y, s₁, rest, hy, hrest, -⟩ := gives_visitOperands_cons.mp h
    have hfirst :=
      emitting_of_gives_visitOperand (fun t ht => hns t (ht ▸ List.mem_cons_self)) hs hy
    have hothers := ih (fun t ht => hns t (List.mem_cons_of_mem _ ht)) hfirst.ready hrest
    rw [Tree.postorderItems, State.effects_append]
    exact hfirst.trans (hfirst.effects_eq ▸ hothers)

theorem State.callee?_name {fn : Func} (h : s.callee? callee = some fn) : fn.name = callee := by
  unfold State.callee? at h
  split at h
  · exact IR.Module.func?_name h
  · cases h

/-- The effects of the arguments from left to right, then the call. -/
theorem inOrder_call {args : Option Node}
    (hlisted : ∀ c, args = some c → c.kind = .parameters)
    (hargs : ∀ l form items, args = some (.seq l form items) → ∀ t, some t ∈ items → InOrder t) :
    InOrder (.unary stamp (.call callee) args) := by
  intro s u s' hs hu
  obtain ⟨fn, values, s₁, w, hcallee, hvalues, hw, -⟩ := gives_visit_call.mp hu
  have hcall : s₁.Emitting [.call callee] s' :=
    State.callee?_name hcallee ▸ emitting_of_gives_emit hw
  rcases gives_visitArgs.mp hvalues with ⟨place, items, rfl, hitems⟩ | ⟨hnone, -, rfl⟩
  · have hlist := emitting_of_gives_visitOperands (hargs _ _ _ rfl) hs hitems
    rw [Tree.postorder, Tree.postorderChild, Tree.postorder, State.effects_append,
      State.effects_append, State.effects_singleton, State.effects_singleton]
    -- the list itself has no effect
    exact (hlist.trans (.refl hlist.ready)).trans hcall
  · cases args with
    | none => exact hcall
    | some c =>
      obtain ⟨place, items, rfl⟩ := Node.eq_parameters (hlisted c rfl)
      exact absurd rfl (hnone place items)

/-- The effects of the left operand come before those of the right one. -/
theorem inOrder_binary (hleft : ∀ t, left = some t → InOrder t)
    (hright : ∀ t, right = some t → InOrder t) : InOrder (.binary stamp form left right) := by
  intro s u s' hs hu
  rw [Tree.postorder, State.effects_append, State.effects_append, State.effects_singleton]
  rcases form.view with ⟨ty, op, hform⟩ | ⟨op, hform⟩ | hform | rfl | rfl | rfl | rfl | rfl
  · obtain ⟨x, s₁, y, s₂, w, hx, hy, hw, -⟩ := (gives_visit_operator hform).mp hu
    have hl := emitting_of_gives_visitOperand hleft hs hx
    have hr := emitting_of_gives_visitOperand hright hl.ready hy
    have hop := emitting_of_gives_emit hw
    rw [BinaryForm.effect?_instruction hform] at hop
    rw [State.effect?_of_not_assign (by rintro rfl; cases hform)]
    exact (hl.trans (hl.effects_eq ▸ hr)).trans hop
  · obtain ⟨x, s₁, place, k, w, hx, rfl, -, hw, -⟩ := (gives_visit_shift hform).mp hu
    have hl := emitting_of_gives_visitOperand hleft hs hx
    -- the amount is no operand, but a number has no effect
    rw [State.effect?_of_not_assign (by rintro rfl; cases hform), List.append_assoc]
    exact hl.trans (emitting_of_gives_emit hw)
  · exact absurd hu (not_gives_visit_unknown hform)
  · obtain ⟨place, x, stars, slot, y, s₁, w, rfl, hslot, hy, hw, -⟩ := gives_visit_assign.mp hu
    have hr := emitting_of_gives_visitOperand hright hs hy
    -- the slot is looked up first, and the store comes last
    rw [State.effect?, hslot.target?]
    exact hr.trans (emitting_of_gives_emit hw)
  · simp [gives_visit_declaration] at hu
  · simp [gives_visit_forward] at hu
  · simp [gives_visit_ifThen] at hu
  · simp [gives_visit_while] at hu

theorem inOrder (hlisted : n.ArgumentsListed) : InOrder n := by
  induction n using Tree.ind with
  | leaf l form =>
    intro s u s' hs hu
    rcases gives_visit_leaf.mp hu with ⟨c, rfl, -, rfl⟩ | ⟨x, stars, slot, rfl, -, -, rfl⟩
      <;> exact .refl hs
  | seq l form items ih => exact fun s u s' _ hu => absurd hu not_gives_visit_seq
  | unary l form child ih ihArgs =>
    cases form with
    | signature name => exact fun s u s' _ hu => absurd hu not_gives_visit_signature
    | ret =>
      intro s u s' hs hu
      cases child <;> simp [gives_visit_return_none, gives_visit_return_some] at hu
    | call callee =>
      have hself : ∀ c, child = some c → c.kind = .parameters := by
        rintro c rfl
        exact hlisted l callee c (Tree.mem_postorder_self _)
      refine inOrder_call hself fun l' form' items hchild t ht => ?_
      subst hchild
      have hlist := hlisted.child (c := .seq l' form' items) List.mem_cons_self
      exact ihArgs l' form' items rfl t ht (hlist.child ht)
  | binary l form left right ihl ihr =>
    refine inOrder_binary (fun t ht => ihl t ht (hlisted.child ?_)) fun t ht => ihr t ht
      (hlisted.child ?_) <;> simp [Tree.children, ht]
  | ternary l form first second third ih₁ ih₂ ih₃ =>
    intro s u s' hs hu
    cases form with
    | definition => simp [gives_visit_definition] at hu
    | ifThenElse => simp [gives_visit_ifThenElse] at hu

/-- An expression is lowered to code at the end of the block that is being filled; all else in the
state stays as it is. The calls and the stores of the code are those of the calls and the
assignments in the tree, in post-order. -/
theorem effects_in_order {n : Node} {v : Value} (hlisted : n.ArgumentsListed)
    (hf : s.frame = some f) (hb : f.Filling i b) (h : (visit n).run.run s = (.ok (some v), s')) :
    ∃ code : List Instr,
      s' = { s with
        frame := some { f with
          blocks := f.blocks.set i { b with instrs := b.instrs ++ code }
          count := f.count + code.length } } ∧
      code.filterMap (·.op.effect?) = n.postorder.filterMap s.effect? := by
  obtain ⟨f', i', b', code, hf', hb', rfl, hcode⟩ := inOrder hlisted s v s' ⟨f, i, b, hf, hb⟩ h
  obtain rfl := Option.mem_unique hf hf'
  obtain ⟨rfl, rfl⟩ := hb.unique hb'
  exact ⟨code, rfl, hcode⟩

/-- In the body of a function that has a variable `x`, where a function `g` is declared. -/
def midway : State where
  module := ⟨"a.c", [], [⟨"g", .i32, [⟨"a", .i32⟩], []⟩, ⟨"f", .i32, [], []⟩]⟩
  symbols := [("x", .var (.result 0 (.ptr .i32)) (some "f")), ("f", .func), ("g", .func)]
  defined := ["f"]
  scope := "f"
  frame := some ⟨"f", .i32, [⟨"entry", [⟨0, .alloca "x" .i32 4⟩], none⟩], some 0,
    [("x", 1), ("entry", 1)], 1⟩
  warnings := []
  rejections := []

/-- `x = g(x = 1) + g(x)` -/
def nestedCalls : Node :=
  let k : Stamp := ⟨⟨0, 0⟩, .unknown⟩
  let x : Option Node := some (.leaf k (.names ["x"] 0))
  let call (arg : Option Node) : Option Node :=
    some (.unary k (.call "g") (some (.seq k .parameters [arg])))
  let inner : Option Node := some (.binary k .assign x (some (.leaf k (.intConst 1))))
  .binary k .assign x (some (.binary k (.arithmetic (.known .add)) (call inner) (call x)))

theorem nestedCalls_in_order :
    ∃ v s' code, (visit nestedCalls).run.run midway = (.ok (some v), s') ∧
      s'.frame.map (·.blocks) = some [⟨"entry", [⟨0, .alloca "x" .i32 4⟩] ++ code, none⟩] ∧
      code.filterMap (·.op.effect?) =
        [.store (some (.result 0 (.ptr .i32))), .call "g", .call "g",
          .store (some (.result 0 (.ptr .i32)))] := by
  have hlisted : nestedCalls.ArgumentsListed := by
    intro stamp callee c hc
    simp only [nestedCalls, Tree.postorder, Tree.postorderChild, Tree.postorderItems,
      List.cons_append, List.nil_append, List.append_nil, List.mem_cons, List.not_mem_nil,
      reduceCtorEq, Tree.unary.injEq, Option.some.injEq, false_or, or_false] at hc
    rcases hc with ⟨-, -, rfl⟩ | ⟨-, -, rfl⟩ <;> rfl
  have hcheck : (((visit nestedCalls).run.run midway).1.toOption.any Option.isSome) = true := by
    decide +kernel
  obtain ⟨r, s', hrun⟩ : ∃ r s', (visit nestedCalls).run.run midway = (r, s') := ⟨_, _, rfl⟩
  rw [hrun] at hcheck
  obtain ⟨v, rfl, hv⟩ := exists_ok_of_any hcheck
  obtain ⟨v, rfl⟩ := Option.isSome_iff_exists.mp hv
  obtain ⟨code, rfl, hcode⟩ := effects_in_order hlisted rfl ⟨rfl, rfl, rfl⟩ hrun
  exact ⟨v, _, code, hrun, rfl, hcode⟩

end Lowering

end CSubset
