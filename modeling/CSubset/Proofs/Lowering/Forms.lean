import CSubset.Proofs.Lowering.Steps
import CSubset.Proofs.Tree.Induction

/-!
# What it takes to lower each form of node

One lemma for each form: lowering a node of this form succeeds exactly if its parts are lowered in
order and the instructions of the form are appended. The operators with two operands are treated
alike (`BinaryForm.instruction?`); a shift is apart, since its amount is no operand.
-/

namespace CSubset

open IR (Ty Value Op BinOp Pred Term Block Func)
open Lowering (arithmeticOp comparisonPred booleanOp)

/-- The type of the operands of an operator, and the instruction that it is lowered to. -/
def BinaryForm.instruction? : BinaryForm → Option (Ty × (Value → Value → Op))
  | .arithmetic (.known op) => some (.i32, .binary (arithmeticOp op))
  | .bitwise (.known .and) => some (.i32, .binary .and)
  | .bitwise (.known .or) => some (.i32, .binary .or)
  | .bitwise (.known .xor) => some (.i32, .binary .xor)
  | .comparison (.known op) => some (.i32, .icmp (comparisonPred op))
  | .boolean (.known op) => some (.i1, .binary (booleanOp op))
  | _ => none

/-- The instruction that a shift is lowered to. -/
def BinaryForm.shift? : BinaryForm → Option BinOp
  | .bitwise (.known .shl) => some .shl
  | .bitwise (.known .shr) => some .ashr
  | _ => none

/-- An operator outside the language. -/
def BinaryForm.IsUnknown : BinaryForm → Prop
  | .arithmetic (.unknown _) | .bitwise (.unknown _) | .comparison (.unknown _)
  | .boolean (.unknown _) => True
  | _ => False

/-- A binary node is an operator, a shift, a node of some other form, or has no meaning. -/
theorem BinaryForm.view (form : BinaryForm) :
    (∃ ty op, form.instruction? = some (ty, op)) ∨ (∃ op, form.shift? = some op) ∨ form.IsUnknown ∨
      form = .assign ∨ form = .declaration ∨ form = .forward ∨ form = .ifThen ∨ form = .while := by
  rcases form with (op | code) | (op | code) | (op | code) | (op | code) | _ | _ | _ | _ | _
  case bitwise.known => cases op <;> simp [instruction?, shift?]
  all_goals simp [instruction?, shift?, IsUnknown]

namespace Lowering

variable {s s' : State} {stamp : Stamp} {v : Option Value} {u : Unit} {form : BinaryForm}
  {left n right type names body cond args params ret : Option Node} {items ns : List (Option Node)}
  {x name : String} {ty want : Ty} {types : List Ty} {y : Value} {ys : List Value} {f : Frame}
  {tag : Coded TypeTag}

/-! ## Operands -/

/-- What a name stands for in a state: a global slot, or one of the function under construction. -/
def State.Resolves (s : State) (name : String) (slot : Value) : Prop :=
  ∃ owner, s.symbol? name = some (.var slot owner) ∧
    ∀ func, owner = some func → s.frame.map (·.func) = some func

theorem singleName?_eq_some {names : List String} :
    Tree.singleName? names = some x ↔ names = [x] := by
  rcases names with _ | ⟨y, _ | ⟨z, rest⟩⟩ <;> simp [Tree.singleName?]

/-- A single name that stands for a variable in force is resolved to its slot. -/
theorem gives_resolve {n : Node} {names : List String} {slot : Value} :
    Gives (resolve n names) s slot s' ↔ (∃ x, names = [x] ∧ s.Resolves x slot) ∧ s' = s := by
  unfold resolve
  cases hx : Tree.singleName? names with
  | none =>
    simp only [gives_rejectAt, false_iff, not_and]
    rintro ⟨x, hnames, -⟩
    simp [singleName?_eq_some.mpr hnames] at hx
  | some x =>
    obtain rfl := singleName?_eq_some.mp hx
    simp only [gives_bind, gives_get, and_assoc, exists_and_left, exists_eq_left]
    rcases hsym : s.symbol? x with _ | _ | ⟨slot', owner⟩
    · simp [State.Resolves, hsym]
    · simp [State.Resolves, hsym]
    · have hres : ∀ slot, s.Resolves x slot ↔
          slot = slot' ∧ ∀ func, owner = some func → s.frame.map (·.func) = some func := by
        intro slot
        simp only [State.Resolves, hsym, Option.some.injEq, Symbol.var.injEq]
        constructor
        · rintro ⟨_, ⟨rfl, rfl⟩, h⟩
          exact ⟨rfl, h⟩
        · rintro ⟨rfl, h⟩
          exact ⟨owner, ⟨rfl, rfl⟩, h⟩
      simp only [List.cons.injEq, and_true, exists_eq_left', hres]
      cases owner with
      | none => simp
      | some func =>
        simp only [gives_ite, gives_pure, gives_rejectAt, and_false, or_false,
          Option.some.injEq, forall_eq']
        grind

theorem gives_load {x : Value} :
    Gives (load x) s y s' ↔
      (∃ elem, x.ty = .ptr elem ∧ Gives (emit (.load elem x)) s y s') ∨
      (x.ty.pointee? = none ∧ y = x ∧ s' = s) := by
  unfold load
  cases hx : x.ty <;> simp [Ty.pointee?]

/-- A value of one type can stand for an operand of another, with an instruction between them or
none. -/
theorem gives_coerce {n : Node} {x : Value} :
    Gives (coerce n x want) s y s' ↔
      (x.ty = want ∧ y = x ∧ s' = s) ∨
      (x.ty = .i1 ∧ want = .i32 ∧ Gives (emit (.zext x .i32)) s y s') ∨
      (x.ty = .i32 ∧ want = .i1 ∧ Gives (emit (.icmp .ne x (.const 0))) s y s') := by
  unfold coerce
  simp only [gives_ite, gives_pure, gives_rejectAt, and_false, or_false, false_or, Ty.isVoid,
    Ty.isBool, Ty.isInt32, Bool.and_eq_true, decide_eq_true_eq]
  constructor
  · rintro (⟨h, rfl, rfl⟩ | ⟨-, -, ⟨⟨h, hw⟩, he⟩ | ⟨-, ⟨h, hw⟩, he⟩⟩)
    · exact .inl ⟨h, rfl, rfl⟩
    · exact .inr (.inl ⟨h, hw, he⟩)
    · exact .inr (.inr ⟨h, hw, he⟩)
  · rintro (⟨h, rfl, rfl⟩ | ⟨h, rfl, he⟩ | ⟨h, rfl, he⟩)
    · exact .inl ⟨h, rfl, rfl⟩
    · exact .inr ⟨by simp [h], by simp [h], .inl ⟨⟨h, rfl⟩, he⟩⟩
    · exact .inr ⟨by simp [h], by simp [h], .inr ⟨by simp [h], ⟨h, rfl⟩, he⟩⟩

/-- An operand is lowered, loaded if it is an address, and converted to the type that is wanted. -/
theorem gives_visitOperand :
    Gives (visitOperand want n) s y s' ↔
      ∃ t u s₁ x s₂, n = some t ∧ Gives (visit t) s (some u) s₁ ∧ Gives (load u) s₁ x s₂ ∧
        Gives (coerce t x want) s₂ y s' := by
  cases n with
  | none => simp [visitOperand]
  | some n =>
    simp only [visitOperand, gives_bind]
    constructor
    · rintro ⟨_ | u, s₁, hu, h⟩
      · simp at h
      · simp only [gives_bind] at h
        obtain ⟨x, s₂, hx, hy⟩ := h
        exact ⟨n, u, s₁, x, s₂, rfl, hu, hx, hy⟩
    · rintro ⟨t, u, s₁, x, s₂, ht, hu, hx, hy⟩
      obtain rfl : n = t := by simpa using ht
      exact ⟨some u, s₁, hu, by simpa using ⟨x, s₂, hx, hy⟩⟩

theorem gives_visitOperands_nil : Gives (visitOperands types []) s ys s' ↔ ys = [] ∧ s' = s := by
  simp [visitOperands]

theorem gives_visitOperands_cons :
    Gives (visitOperands types (n :: ns)) s ys s' ↔
      ∃ y s₁ rest, Gives (visitOperand (types.head?.getD .i32) n) s y s₁ ∧
        Gives (visitOperands types.tail ns) s₁ rest s' ∧ ys = y :: rest := by
  simp only [visitOperands, gives_bind, gives_pure]
  constructor
  · rintro ⟨y, s₁, hy, rest, _, hrest, rfl, rfl⟩
    exact ⟨y, s₁, rest, hy, hrest, rfl⟩
  · rintro ⟨y, s₁, rest, hy, hrest, rfl⟩
    exact ⟨y, s₁, hy, rest, s', hrest, rfl, rfl⟩

/-! ## Expressions

One equivalence for each form: when the node is lowered, to which value, and in which state that
leaves lowering. -/

-- The equations of `visit` take long to make: the attribute makes them before all proofs need them.
attribute [local simp] visit in
/-- Only numbers and names have a value. -/
theorem gives_visit_leaf {form : Leaf} :
    Gives (visit (.leaf stamp form)) s v s' ↔
      (∃ c, form = .intConst c ∧ v = some (.const c) ∧ s' = s) ∨
      (∃ x stars slot, form = .names [x] stars ∧ s.Resolves x slot ∧ v = some slot ∧ s' = s) := by
  cases form with
  | intConst c => simp [visitLeaf]
  | strConst c => simp [visitLeaf]
  | identifier c => simp [visitLeaf]
  | type tag c => simp [visitLeaf]
  | names names stars =>
    simp only [visit, visitLeaf, gives_bind, gives_pure, gives_resolve]
    constructor
    · rintro ⟨slot, _, ⟨⟨x, rfl, hx⟩, rfl⟩, rfl, rfl⟩
      exact .inr ⟨x, stars, slot, rfl, hx, rfl, rfl⟩
    · rintro (⟨c, h, -⟩ | ⟨x, stars', slot, h, hx, rfl, rfl⟩)
      · simp at h
      · obtain ⟨rfl, rfl⟩ : names = [x] ∧ stars = stars' := by simpa using h
        exact ⟨slot, s', ⟨⟨x, rfl, hx⟩, rfl⟩, rfl, rfl⟩

example : Gives (visit (.leaf stamp (.intConst 7))) s (some (.const 7)) s := rfl

/-- Both operands from left to right, then the instruction. -/
theorem gives_visit_operator {op : Value → Value → Op} (hform : form.instruction? = some (ty, op)) :
    Gives (visit (.binary stamp form left right)) s v s' ↔
      ∃ x s₁ y s₂ w, Gives (visitOperand ty left) s x s₁ ∧ Gives (visitOperand ty right) s₁ y s₂ ∧
        Gives (emit (op x y)) s₂ w s' ∧ v = some w := by
  rcases form with (op' | code) | (op' | code) | (op' | code) | (op' | code) | _ | _ | _ | _ | _ <;>
    simp only [BinaryForm.instruction?, reduceCtorEq] at hform
  · obtain ⟨rfl, rfl⟩ : Ty.i32 = ty ∧ Op.binary (arithmeticOp op') = op := by simpa using hform
    rw [visit]
    simp only [gives_bind, gives_pure]
    grind
  · rw [visit]
    cases op' <;> simp only [reduceCtorEq, Option.some.injEq, Prod.mk.injEq] at hform <;>
      obtain ⟨rfl, rfl⟩ := hform <;> simp only [gives_bind, gives_pure] <;> grind
  · obtain ⟨rfl, rfl⟩ : Ty.i32 = ty ∧ Op.icmp (comparisonPred op') = op := by simpa using hform
    rw [visit]
    simp only [gives_bind, gives_pure]
    grind
  · obtain ⟨rfl, rfl⟩ : Ty.i1 = ty ∧ Op.binary (booleanOp op') = op := by simpa using hform
    rw [visit]
    simp only [gives_bind, gives_pure]
    grind

/-- The amount of a shift is a literal below 32. -/
theorem gives_visit_shift {op : BinOp} (hform : form.shift? = some op) :
    Gives (visit (.binary stamp form left right)) s v s' ↔
      ∃ x s₁ place k w, Gives (visitOperand .i32 left) s x s₁ ∧
        right = some (.leaf place (.intConst k)) ∧
        (0 ≤ k ∧ k < 32) ∧ Gives (emit (.binary op x (.const k))) s₁ w s' ∧ v = some w := by
  have hshift : ∀ (n : Node) (op : BinOp) (x : Value) (t : State),
      Gives (shift n op x right) t v s' ↔
        ∃ place k w, right = some (.leaf place (.intConst k)) ∧ (0 ≤ k ∧ k < 32) ∧
          Gives (emit (.binary op x (.const k))) t w s' ∧ v = some w := by
    intro n op x t
    unfold shift
    split
    next place k =>
      simp only [gives_ite, gives_bind, gives_pure, gives_rejectAt, and_false, or_false]
      grind
    next hright =>
      simp only [gives_rejectAt, false_iff]
      rintro ⟨place, k, w, h, -⟩
      exact hright place k h
  rcases form with _ | (op' | code) | _ | _ | _ | _ | _ | _ | _ <;>
    simp only [BinaryForm.shift?, reduceCtorEq] at hform
  rw [visit]
  simp only [gives_bind]
  cases op' <;> simp only [reduceCtorEq, Option.some.injEq] at hform <;> subst hform <;>
    simp only [hshift] <;> grind

theorem not_gives_visit_unknown (hform : form.IsUnknown) :
    ¬Gives (visit (.binary stamp form left right)) s v s' := by
  rcases form with (op | code) | (op | code) | (op | code) | (op | code) | _ | _ | _ | _ | _ <;>
    simp only [BinaryForm.IsUnknown] at hform <;>
    rw [visit] <;> simp

/-- The target, the value, then the store; the value is that of the assignment. -/
theorem gives_visit_assign :
    Gives (visit (.binary stamp .assign left right)) s v s' ↔
      ∃ place x stars slot y s₁ w, left = some (.leaf place (.names [x] stars)) ∧
        s.Resolves x slot ∧
        Gives (visitOperand (slot.ty.pointee?.getD .i32) right) s y s₁ ∧
        Gives (emit (.store y slot)) s₁ w s' ∧ v = some y := by
  by_cases hleft : ∃ place names stars, left = some (.leaf place (.names names stars))
  · obtain ⟨place, names, stars, rfl⟩ := hleft
    rw [visit]
    simp only [gives_bind, gives_pure, gives_resolve]
    constructor
    · rintro ⟨slot, _, ⟨⟨x, rfl, hx⟩, rfl⟩, y, s₁, hy, w, _, hw, rfl, rfl⟩
      exact ⟨place, x, stars, slot, y, s₁, w, rfl, hx, hy, hw, rfl⟩
    · rintro ⟨place', x, stars', slot, y, s₁, w, h, hx, hy, hw, rfl⟩
      obtain ⟨rfl, rfl, rfl⟩ : place = place' ∧ names = [x] ∧ stars = stars' := by simpa using h
      exact ⟨slot, s, ⟨⟨x, rfl, hx⟩, rfl⟩, y, s₁, hy, w, s', hw, rfl, rfl⟩
  · have hreject : visit (.binary stamp .assign left right) =
        rejectAt (.binary stamp .assign left right) (.notAssignable (left.map Tree.kind)) := by
      rw [visit]
      exact fun place names stars h => hleft ⟨place, names, stars, h⟩
    simp only [hreject, gives_rejectAt, false_iff]
    rintro ⟨place, x, stars, slot, y, s₁, w, h, -⟩
    exact hleft ⟨place, [x], stars, h⟩

theorem gives_visitArgs :
    Gives (visitArgs types args) s ys s' ↔
      (∃ place items, args = some (.seq place .parameters items) ∧
        Gives (visitOperands types items) s ys s') ∨
      ((∀ place items, args ≠ some (.seq place .parameters items)) ∧ ys = [] ∧ s' = s) := by
  rw [visitArgs.eq_def]
  split
  next place items =>
    constructor
    · intro h
      exact .inl ⟨place, items, rfl, h⟩
    · rintro (⟨place', items', h, hy⟩ | ⟨h, -⟩)
      · obtain ⟨rfl, rfl⟩ : place = place' ∧ items = items' := by simpa using h
        exact hy
      · exact absurd rfl (h place items)
  next hargs =>
    simp only [gives_pure]
    constructor
    · intro h
      exact .inr ⟨fun place items => hargs place items, h⟩
    · rintro (⟨place, items, h, -⟩ | ⟨-, h⟩)
      · exact absurd h (hargs place items)
      · exact h

/-- The function, the arguments from left to right, then the call. -/
theorem gives_visit_call {callee : String} :
    Gives (visit (.unary stamp (.call callee) args)) s v s' ↔
      ∃ f values s₁ w, s.callee? callee = some f ∧
        Gives (visitArgs (f.params.map (·.ty)) args) s values s₁ ∧
        Gives (emit (.call f.name f.ret values)) s₁ w s' ∧ v = some w := by
  rw [visit]
  simp only [gives_bind, gives_get, and_assoc, exists_and_left, exists_eq_left]
  cases s.callee? callee with
  | none => simp
  | some f =>
    simp only [gives_bind, gives_pure]
    grind

/-! ## Statements

The states between the parts are written out: the frame with the new blocks, then the one with the
block that is filled next. -/

theorem gives_visit_block :
    Gives (visit (.seq stamp .block items)) s v s' ↔
      (∃ f, s.frame = some f) ∧ Gives (visitStatements items) s () s' ∧ v = none := by
  rw [visit]
  simp only [gives_bind, gives_inFunction, gives_ite, gives_pure, gives_rejectAt, false_and,
    exists_false, and_false, false_or, Bool.not_eq_true', ← Option.isSome_iff_exists]
  grind

theorem gives_visit_return_none :
    Gives (visit (.unary stamp .ret none)) s v s' ↔
      (∃ f, s.frame = some f ∧ f.ret = .void) ∧ Gives (close (.ret none)) s () s' ∧ v = none := by
  rw [visit]
  simp only [gives_bind, gives_getFrame, gives_ite, Ty.isVoid]
  simp
  grind

theorem gives_visit_return_some {value : Node} :
    Gives (visit (.unary stamp .ret (some value))) s v s' ↔
      ∃ f x s₁, s.frame = some f ∧ f.ret ≠ .void ∧ Gives (visitOperand f.ret (some value)) s x s₁ ∧
        Gives (close (.ret (some x))) s₁ () s' ∧ v = none := by
  rw [visit]
  simp only [gives_bind, gives_getFrame, gives_ite, Ty.isVoid]
  simp
  grind

theorem gives_visitStatement :
    Gives (visitStatement n) s u s' ↔ (n = none ∧ s' = s) ∨ ∃ t v, n = some t ∧
      Gives (visit t) s v s' := by
  cases n <;> simp [visitStatement]

/-- Two blocks are added, the condition ends the open block, and the body is lowered into the first
of them. -/
theorem gives_visit_ifThen :
    Gives (visit (.binary stamp .ifThen cond body)) s v s' ↔
      ∃ f c s₁ g i b s₂ h, s.frame = some f ∧
        Gives (visitOperand .i1 cond)
          (s.withFrame ((f.addBlock "if.then").addBlock "if.end")) c s₁ ∧
        s₁.frame = some g ∧ g.Filling i b ∧
        Gives (visitStatement body) (s₁.withFrame ((g.finish i b
          (.condBr c f.blocks.length (f.blocks.length + 1))).moveTo (some f.blocks.length))) () s₂ ∧
        s₂.frame = some h ∧
        s' = s₂.withFrame
          ((h.endWith (.br (f.blocks.length + 1))).moveTo (some (f.blocks.length + 1))) ∧
        v = none := by
  have hvisit : visit (.binary stamp .ifThen cond body) = (do
      let thenBlock ← newBlock "if.then"
      let endBlock ← newBlock "if.end"
      let c ← visitOperand .i1 cond
      close (.condBr c thenBlock endBlock)
      moveTo (some thenBlock)
      visitStatement body
      leaveBody endBlock endBlock) := by
    rw [visit]
    rfl
  rw [hvisit]
  simp only [gives_bind, gives_newBlock, gives_moveTo, gives_close, gives_leaveBody]
  constructor
  · rintro ⟨_, _, ⟨f, hf, rfl, rfl⟩, _, _, ⟨f', hf', rfl, rfl⟩, c, s₁, hc, _, _,
      ⟨g, i, b, hg, hfill, rfl⟩, _, _, ⟨g', hg', rfl⟩, _, s₂, hbody, h, hh, rfl, rfl⟩
    obtain rfl : f.addBlock "if.then" = f' := by simpa using hf'
    obtain rfl : g.finish i b _ = g' := by simpa using hg'
    refine ⟨f, c, s₁, g, i, b, s₂, h, hf, hc, hg, hfill, ?_, hh, ?_, rfl⟩ <;>
      simp_all [Frame.addBlock]
  · rintro ⟨f, c, s₁, g, i, b, s₂, h, hf, hc, hg, hfill, hbody, hh, rfl, rfl⟩
    refine ⟨_, _, ⟨f, hf, rfl, rfl⟩, _, _, ⟨_, rfl, rfl, rfl⟩, c, s₁, hc, (), _,
      ⟨g, i, b, hg, hfill, rfl⟩, (), _, ⟨_, rfl, rfl⟩, (), s₂, ?_, h, hh, ?_, rfl⟩ <;>
      simp_all [Frame.addBlock]

/-- The frame with the three blocks of a loop. -/
def Frame.addLoop (f : Frame) : Frame :=
  ((f.addBlock "while.cond").addBlock "while.body").addBlock "while.end"

/-- Three blocks are added: for the condition, for the body, and for what comes behind. -/
theorem gives_visit_while :
    Gives (visit (.binary stamp .while cond body)) s v s' ↔
      ∃ f i b c s₁ g j d s₂ h, s.frame = some f ∧ f.addLoop.Filling i b ∧
        Gives (visitOperand .i1 cond) (s.withFrame
          ((f.addLoop.finish i b (.br f.blocks.length)).moveTo (some f.blocks.length))) c s₁ ∧
        s₁.frame = some g ∧ g.Filling j d ∧
        Gives (visitStatement body) (s₁.withFrame ((g.finish j d
          (.condBr c (f.blocks.length + 1) (f.blocks.length + 2))).moveTo
            (some (f.blocks.length + 1)))) () s₂ ∧
        s₂.frame = some h ∧
        s' = s₂.withFrame ((h.endWith (.br f.blocks.length)).moveTo (some (f.blocks.length + 2))) ∧
        v = none := by
  have hvisit : visit (.binary stamp .while cond body) = (do
      let condBlock ← newBlock "while.cond"
      let bodyBlock ← newBlock "while.body"
      let endBlock ← newBlock "while.end"
      close (.br condBlock)
      moveTo (some condBlock)
      let c ← visitOperand .i1 cond
      close (.condBr c bodyBlock endBlock)
      moveTo (some bodyBlock)
      visitStatement body
      leaveBody condBlock endBlock) := by
    rw [visit]
    rfl
  rw [hvisit]
  simp only [gives_bind, gives_newBlock, gives_moveTo, gives_close, gives_leaveBody]
  constructor
  · rintro ⟨_, _, ⟨f, hf, rfl, rfl⟩, _, _, ⟨f₁, hf₁, rfl, rfl⟩, _, _, ⟨f₂, hf₂, rfl, rfl⟩, _, _,
      ⟨f₃, i, b, hf₃, hfill, rfl⟩, _, _, ⟨f₄, hf₄, rfl⟩, c, s₁, hc, _, _,
      ⟨g, j, d, hg, hfill', rfl⟩, _, _, ⟨g', hg', rfl⟩, _, s₂, hbody, h, hh, rfl, rfl⟩
    obtain rfl : f.addBlock "while.cond" = f₁ := by simpa using hf₁
    obtain rfl : (f.addBlock "while.cond").addBlock "while.body" = f₂ := by simpa using hf₂
    obtain rfl : f.addLoop = f₃ := by simpa [Frame.addLoop] using hf₃
    obtain rfl : f.addLoop.finish i b _ = f₄ := by simpa using hf₄
    obtain rfl : g.finish j d _ = g' := by simpa using hg'
    refine ⟨f, i, b, c, s₁, g, j, d, s₂, h, hf, hfill, hc, hg, hfill', ?_, hh, ?_, rfl⟩ <;>
      simp_all [Frame.addBlock]
  · rintro ⟨f, i, b, c, s₁, g, j, d, s₂, h, hf, hfill, hc, hg, hfill', hbody, hh, rfl, rfl⟩
    refine ⟨_, _, ⟨f, hf, rfl, rfl⟩, _, _, ⟨_, rfl, rfl, rfl⟩, _, _, ⟨_, rfl, rfl, rfl⟩, (), _,
      ⟨_, i, b, rfl, hfill, rfl⟩, (), _, ⟨_, rfl, rfl⟩, c, s₁, hc, (), _,
      ⟨g, j, d, hg, hfill', rfl⟩, (), _, ⟨_, rfl, rfl⟩, (), s₂, ?_, h, hh, ?_, rfl⟩ <;>
      simp_all [Frame.addBlock]

theorem gives_visit_ifThenElse {thenBody elseBody : Option Node} :
    Gives (visit (.ternary stamp .ifThenElse cond thenBody elseBody)) s v s' ↔
      ∃ f c s₁ g i b s₂ h s₃ k, s.frame = some f ∧
        Gives (visitOperand .i1 cond)
          (s.withFrame ((f.addBlock "if.then").addBlock "if.else")) c s₁ ∧
        s₁.frame = some g ∧ g.Filling i b ∧
        Gives (visitStatement thenBody) (s₁.withFrame ((g.finish i b
          (.condBr c f.blocks.length (f.blocks.length + 1))).moveTo (some f.blocks.length))) () s₂ ∧
        s₂.frame = some h ∧ h.isOpen = false ∧
        Gives (visitStatement elseBody)
          (s₂.withFrame (h.moveTo (some (f.blocks.length + 1)))) () s₃ ∧
        s₃.frame = some k ∧ k.isOpen = false ∧ s' = s₃.withFrame (k.moveTo none) ∧ v = none := by
  rw [visit]
  simp only [gives_bind, gives_newBlock, gives_moveTo, gives_close, gives_isOpen, gives_ite,
    gives_rejectAt, gives_pure, false_and, exists_false, and_false, false_or]
  constructor
  · rintro ⟨_, _, ⟨f, hf, rfl, rfl⟩, _, _, ⟨f', hf', rfl, rfl⟩, c, s₁, hc, _, _,
      ⟨g, i, b, hg, hfill, rfl⟩, _, _, ⟨g', hg', rfl⟩, _, s₂, hthen, _, _, ⟨rfl, rfl⟩, hopen, _, _,
      ⟨h, hh, rfl⟩, _, s₃, helse, _, _, ⟨rfl, rfl⟩, hopen', _, _, ⟨k, hk, rfl⟩, rfl, rfl⟩
    obtain rfl : f.addBlock "if.then" = f' := by simpa using hf'
    obtain rfl : g.finish i b _ = g' := by simpa using hg'
    refine ⟨f, c, s₁, g, i, b, _, h, _, k, hf, hc, hg, hfill, ?_, hh, ?_, ?_, hk, ?_, rfl, rfl⟩ <;>
      simp_all [Frame.addBlock]
  · rintro ⟨f, c, s₁, g, i, b, s₂, h, s₃, k, hf, hc, hg, hfill, hthen, hh, hopen, helse, hk,
      hopen', rfl, rfl⟩
    refine ⟨_, _, ⟨f, hf, rfl, rfl⟩, _, _, ⟨_, rfl, rfl, rfl⟩, c, s₁, hc, (), _,
      ⟨g, i, b, hg, hfill, rfl⟩, (), _, ⟨_, rfl, rfl⟩, (), s₂, ?_, _, _, ⟨rfl, rfl⟩, ?_, (), _,
      ⟨h, hh, rfl⟩, (), s₃, ?_, _, _, ⟨rfl, rfl⟩, ?_, (), _, ⟨k, hk, rfl⟩, rfl, rfl⟩ <;>
      simp_all [Frame.addBlock]

theorem gives_visitStatements_nil : Gives (visitStatements []) s u s' ↔ s' = s := by
  simp [visitStatements]

/-- Behind the end of a block the rest of a list is left out, with a warning. -/
theorem gives_visitStatements_cons :
    Gives (visitStatements (n :: ns)) s u s' ↔
      ((s.frame.map Frame.isOpen).getD false = true ∧
        ∃ s₁, Gives (visitStatement n) s () s₁ ∧ Gives (visitStatements ns) s₁ () s') ∨
      ((s.frame.map Frame.isOpen).getD false = false ∧
        s' = { s with warnings := s.warnings ++ [⟨n.map Node.pos, .unreachableCode⟩] }) := by
  simp only [visitStatements, gives_bind, gives_isOpen, gives_ite, gives_warn]
  constructor
  · rintro ⟨_, _, ⟨rfl, rfl⟩, ⟨ho, _, s₁, h, hs⟩ | ⟨ho, rfl⟩⟩
    · exact .inl ⟨ho, s₁, h, hs⟩
    · exact .inr ⟨by simpa using ho, rfl⟩
  · rintro (⟨ho, s₁, h, hs⟩ | ⟨ho, rfl⟩)
    · exact ⟨_, _, ⟨rfl, rfl⟩, .inl ⟨ho, (), s₁, h, hs⟩⟩
    · exact ⟨_, _, ⟨rfl, rfl⟩, .inr ⟨by simpa using ho, rfl⟩⟩

/-! ## Variables -/

/-- The warnings that a type is worth. -/
def typeWarnings (stamp : Stamp) (tag : Coded TypeTag) : List Warning :=
  if hasCounterpart tag then [] else [⟨some stamp.pos, .typeNotImplemented tag (lowerTag tag)⟩]

theorem lowerTag_eq (tag : Coded TypeTag) : lowerTag tag = .void ∨ lowerTag tag = .i32 := by
  rcases tag with (_ | _ | _) | code <;> simp [lowerTag]

/-- A variable that can be declared: its name, its type and the warnings of its declaration. -/
structure Variable where
  name : String
  tag : Coded TypeTag
  warnings : List Warning

/-- The variable that a declaration with this type and these names introduces. -/
def Variable.ofNodes? : Option Node → Option Node → Option Variable
  | some (.leaf typeStamp (.type tag _)), some (.leaf stamp (.names [x] stars)) =>
    if lowerTag tag = .i32 then
      some ⟨x, tag, typeWarnings typeStamp tag ++
        if 0 < stars then [⟨some stamp.pos, .pointerIgnored x .i32⟩] else []⟩
    else none
  | _, _ => none

/-- The state with more warnings. -/
def State.warned (s : State) (ws : List Warning) : State := { s with warnings := s.warnings ++ ws }

/-- The state after a variable is declared in the function with this frame, whose block `i` was
`b`. -/
def State.declareLocal (s : State) (x : Variable) (f : Frame) (i : Nat) (b : Block) : State :=
  { s.warned x.warnings with
    symbols := (x.name, .var (.result f.count (.ptr .i32)) (some f.func)) :: s.symbols
    frame :=
      some ((f.useName x.name).push i b (.alloca (f.freshName x.name) .i32 (sizeOfTag x.tag))) }

/-- The state after a variable is declared outside functions. -/
def State.declareGlobal (s : State) (x : Variable) : State :=
  { s.warned x.warnings with
    symbols := (x.name, .var (.global x.name .i32) none) :: s.symbols
    module := if s.module.hasGlobal x.name then s.module else s.module.addGlobal ⟨x.name, .i32⟩ }

@[simp] theorem State.funcs_declareGlobal (s : State) (x : Variable) :
    (s.declareGlobal x).module.funcs = s.module.funcs := by
  unfold State.declareGlobal
  dsimp only
  split <;> rfl

theorem State.func?_declareGlobal (s : State) (x : Variable) (name : String) :
    (s.declareGlobal x).module.func? name = s.module.func? name := by
  rw [IR.Module.func?, State.funcs_declareGlobal, IR.Module.func?]

theorem gives_lowerType :
    Gives (lowerType n) s ty s' ↔
      ∃ place tag isConst, n = some (.leaf place (.type tag isConst)) ∧ ty = lowerTag tag ∧
        s' = s.warned (typeWarnings place tag) := by
  unfold lowerType
  split
  next place tag isConst =>
    simp only [gives_bind, gives_ite, gives_warn, gives_pure, State.warned, typeWarnings]
    cases hc : hasCounterpart tag
    · constructor
      · rintro (⟨-, _, _, rfl, rfl, rfl⟩ | ⟨h, -⟩)
        · exact ⟨place, tag, isConst, rfl, rfl, by simp [hc]⟩
        · simp at h
      · rintro ⟨place', tag', isConst', h, rfl, rfl⟩
        obtain ⟨rfl, rfl, rfl⟩ : place = place' ∧ tag = tag' ∧ isConst = isConst' := by
          simpa using h
        exact .inl ⟨rfl, (), _, rfl, rfl, by simp [hc]⟩
    · constructor
      · rintro (⟨h, -⟩ | ⟨-, rfl, rfl⟩)
        · simp at h
        · exact ⟨place, tag, isConst, rfl, rfl, by simp [hc]⟩
      · rintro ⟨place', tag', isConst', h, rfl, rfl⟩
        obtain ⟨rfl, rfl, rfl⟩ : place = place' ∧ tag = tag' ∧ isConst = isConst' := by
          simpa using h
        exact .inr ⟨by simp, rfl, by simp [hc]⟩
  next hn =>
    simp only [gives_reject, false_iff]
    rintro ⟨place, tag, isConst, h, -⟩
    exact hn place tag isConst h

theorem gives_declareGlobal {n : Node} :
    Gives (declareGlobal x n) s u s' ↔
      s.module.hasFunc x = false ∧
        s' = { s with
          symbols := (x, .var (.global x .i32) none) :: s.symbols
          module := if s.module.hasGlobal x then s.module else s.module.addGlobal ⟨x, .i32⟩ } := by
  unfold declareGlobal
  simp only [gives_bind, gives_get, gives_ite, gives_rejectAt, gives_modify, gives_bindSymbol]
  constructor
  · rintro ⟨_, _, ⟨rfl, rfl⟩,
      ⟨-, _, _, h, -⟩ | ⟨hfunc, _, _, ⟨rfl, rfl⟩, ⟨hg, _, _, rfl, rfl⟩ | ⟨hg, rfl⟩⟩⟩
    · exact absurd h id
    · exact ⟨by simpa using hfunc, by simp_all⟩
    · exact ⟨by simpa using hfunc, by simp_all⟩
  · rintro ⟨hfunc, rfl⟩
    refine ⟨_, _, ⟨rfl, rfl⟩, .inr ⟨by simp [hfunc], _, _, ⟨rfl, rfl⟩, ?_⟩⟩
    cases hg : s.module.hasGlobal x
    · exact .inl ⟨rfl, (), _, rfl, by simp⟩
    · exact .inr ⟨by simp, by simp⟩

theorem gives_declareLocal {func : String} :
    Gives (declareLocal x tag ty func) s u s' ↔
      ∃ f i b, s.frame = some f ∧ f.Filling i b ∧
        s' = { s with
          symbols := (x, .var (.result f.count (.ptr ty)) (some func)) :: s.symbols
          frame := some ((f.useName x).push i b (.alloca (f.freshName x) ty (sizeOfTag tag)))
            } := by
  unfold declareLocal
  simp only [gives_bind, gives_newSlot, gives_bindSymbol]
  constructor
  · rintro ⟨_, _, ⟨f, i, b, hf, hfill, rfl, rfl⟩, rfl⟩
    exact ⟨f, i, b, hf, hfill, rfl⟩
  · rintro ⟨f, i, b, hf, hfill, rfl⟩
    exact ⟨_, _, ⟨f, i, b, hf, hfill, rfl, rfl⟩, rfl⟩

/-- Declaring variable `x` in state `s` leaves `s'`. -/
def State.Declares (s : State) (x : Variable) (s' : State) : Prop :=
  match s.frame with
  | none => s.module.hasFunc x.name = false ∧ s' = s.declareGlobal x
  | some f => ∃ i b, f.Filling i b ∧ s' = s.declareLocal x f i b

theorem State.declares_iff_of_frame {x : Variable} (hf : s.frame = some f) :
    s.Declares x s' ↔ ∃ i b, f.Filling i b ∧ s' = s.declareLocal x f i b := by
  simp only [State.Declares, hf]

theorem gives_declareHere {n : Node} {ws : List Warning} :
    Gives (do
      match (← get).frame with
      | none => declareGlobal x n
      | some frame =>
        declareLocal x tag .i32 frame.func) (s.warned ws) u s' ↔ s.Declares ⟨x, tag, ws⟩ s' := by
  rw [(gives_get.mpr ⟨rfl, rfl⟩).bind_iff]
  have hframe : (s.warned ws).frame = s.frame := rfl
  unfold State.Declares
  cases hf : s.frame with
  | none =>
    rw [hframe, hf]
    exact gives_declareGlobal
  | some f =>
    rw [hframe, hf]
    simp only [gives_declareLocal, hframe, hf, Option.some.injEq]
    constructor
    · rintro ⟨_, i, b, rfl, h⟩
      exact ⟨i, b, h⟩
    · rintro ⟨i, b, h⟩
      exact ⟨f, i, b, rfl, h⟩

/-- A variable with one name and a type of numbers, and a place to declare it. -/
theorem gives_declareVariable :
    Gives (declareVariable type names) s u s' ↔ ∃ x, Variable.ofNodes? type names = some x ∧
      s.Declares x s' := by
  unfold declareVariable
  split
  next typeStamp tag isConst nameStamp list stars =>
    cases hx : Tree.singleName? list with
    | none =>
      have hnone : Variable.ofNodes? (some (.leaf typeStamp (.type tag isConst)))
          (some (.leaf nameStamp (.names list stars))) = none := by
        rcases list with _ | ⟨y, _ | ⟨z, rest⟩⟩ <;> simp_all [Variable.ofNodes?, Tree.singleName?]
      simp [hnone]
    | some x =>
      obtain rfl := singleName?_eq_some.mp hx
      have htype : Gives (lowerType (some (.leaf typeStamp (.type tag isConst)))) s (lowerTag tag)
          (s.warned (typeWarnings typeStamp tag)) := gives_lowerType.mpr ⟨_, _, _, rfl, rfl, rfl⟩
      dsimp only
      rw [htype.bind_iff]
      rcases lowerTag_eq tag with htag | htag
      · simp [Variable.ofNodes?, htag, Ty.isVoid]
      · rw [if_neg (by simp [htag, Ty.isVoid])]
        simp only [Variable.ofNodes?, htag, if_true, Option.some.injEq, exists_eq_left']
        by_cases hstars : 0 < stars
        · have hwarned : ∀ w, (s.warned (typeWarnings typeStamp tag)).warned w =
              s.warned (typeWarnings typeStamp tag ++ w) := by simp [State.warned]
          have hhere := @gives_declareHere s s' u x tag (.leaf nameStamp (.names [x] stars))
            (typeWarnings typeStamp tag ++ [⟨some nameStamp.pos, .pointerIgnored x .i32⟩])
          rw [← hwarned] at hhere
          rw [if_pos hstars, if_pos hstars, (gives_warn (u := ()).mpr rfl).bind_iff]
          exact hhere
        · rw [if_neg hstars, if_neg hstars, List.append_nil]
          exact gives_declareHere
  next hn =>
    simp only [gives_reject, false_iff, not_exists, not_and]
    intro x hx
    unfold Variable.ofNodes? at hx
    split at hx
    · exact (hn _ _ _ _ _ _ rfl rfl).elim
    · simp at hx

theorem gives_visit_declaration :
    Gives (visit (.binary stamp .declaration type names)) s v s' ↔
      ∃ x, Variable.ofNodes? type names = some x ∧ s.Declares x s' ∧ v = none := by
  rw [visit]
  simp only [gives_bind, gives_declareVariable, gives_pure]
  grind

theorem Variable.ofNodes?_eq_some {x : Variable}
    (h : Variable.ofNodes? type names = some x) :
    (∃ place isConst, type = some (.leaf place (.type x.tag isConst))) ∧
      ∃ place stars, names = some (.leaf place (.names [x.name] stars)) := by
  unfold Variable.ofNodes? at h
  split at h
  next place tag isConst place' y stars =>
    split at h
    next =>
      obtain rfl := Option.some.inj h
      exact ⟨⟨place, isConst, rfl⟩, place', stars, rfl⟩
    next => simp at h
  next => simp at h

theorem gives_declareFunction_type {place : Place} {isDef : Bool}
    {ps : List IR.Param} (h : Gives (declareFunction ret place name params isDef) s ps s') :
    ∃ stamp tag isConst, ret = some (.leaf stamp (.type tag isConst)) := by
  unfold declareFunction at h
  simp only [gives_bind, gives_lowerType] at h
  obtain ⟨_, _, ⟨stamp, tag, isConst, rfl, -⟩, -⟩ := h
  exact ⟨stamp, tag, isConst, rfl⟩

/-- A declaration of a variable, or outside functions a prototype. -/
theorem gives_visit_forward {name : Option Node} :
    Gives (visit (.binary stamp .forward type name)) s v s' ↔
      (∃ x, Variable.ofNodes? type name = some x ∧ s.Declares x s' ∧ v = none) ∨
      (∃ place func params ps, name = some (.unary place (.signature func) params) ∧
        s.frame = none ∧
        Gives (declareFunction type ⟨.signature, place.pos⟩ func params false) s ps s' ∧
          v = none) := by
  by_cases htype : ∃ place tag isConst, type = some (.leaf place (.type tag isConst))
  · obtain ⟨place', tag, isConst, rfl⟩ := htype
    cases name with
    | none =>
      rw [visit]
      simp [Variable.ofNodes?]
    | some n =>
      by_cases hsig : ∃ place func params, n = .unary place (.signature func) params
      · obtain ⟨place, func, params, rfl⟩ := hsig
        rw [visit]
        rw [(gives_inFunction.mpr ⟨rfl, rfl⟩).bind_iff]
        simp only [gives_bind, gives_ite, gives_rejectAt, gives_pure, Variable.ofNodes?]
        constructor
        · rintro (⟨-, _, _, h, -⟩ | ⟨hframe, ps, _, hps, rfl, rfl⟩)
          · exact h.elim
          · exact .inr ⟨place, func, params, ps, rfl, by simpa using hframe, hps, rfl⟩
        · rintro (⟨x, h, -⟩ | ⟨_, _, _, ps, h, hframe, hps, rfl⟩)
          · simp at h
          · cases h
            exact .inr ⟨by simp [hframe], ps, s', hps, rfl, rfl⟩
      · by_cases hnames : ∃ place names stars, n = .leaf place (.names names stars)
        · obtain ⟨place, names, stars, rfl⟩ := hnames
          rw [visit]
          simp only [gives_bind, gives_declareVariable, gives_pure]
          grind
        · have hreject : visit (.binary stamp .forward (some (.leaf place' (.type tag isConst)))
              (some n)) = rejectAt (.binary stamp .forward (some (.leaf place' (.type tag isConst)))
              (some n)) (.cannotDeclare n.kind) := by
            rw [visit]
            · exact fun place func params h => hsig ⟨place, func, params, h⟩
            · exact fun place names stars h => hnames ⟨place, names, stars, h⟩
          simp only [hreject, gives_rejectAt, false_iff]
          rintro (⟨x, hx, -⟩ | ⟨place, func, params, ps, h, -⟩)
          · obtain ⟨-, place, stars, h⟩ := Variable.ofNodes?_eq_some hx
            exact hnames ⟨place, [x.name], stars, Option.some.inj h⟩
          · exact hsig ⟨place, func, params, Option.some.inj h⟩
  · have hreject : visit (.binary stamp .forward type name) =
        rejectAt (.binary stamp .forward type name) .untypedDeclaration := by
      rw [visit] <;> intro place tag isConst
      · exact fun _ _ _ h _ => htype ⟨place, tag, isConst, h⟩
      · exact fun _ _ _ h _ => htype ⟨place, tag, isConst, h⟩
      · exact fun _ h _ => htype ⟨place, tag, isConst, h⟩
      · exact fun h _ => htype ⟨place, tag, isConst, h⟩
    simp only [hreject, gives_rejectAt, false_iff]
    rintro (⟨x, hx, -⟩ | ⟨place, func, params, ps, -, -, h, -⟩)
    · obtain ⟨⟨place, isConst, h⟩, -⟩ := Variable.ofNodes?_eq_some hx
      exact htype ⟨place, x.tag, isConst, h⟩
    · exact htype (gives_declareFunction_type h)

/-! ## Forms that are no statements -/

theorem gives_visit_program :
    Gives (visit (.seq stamp .program items)) s v s' ↔
      s.frame = none ∧ Gives (visitTopLevel items) s () s' ∧ v = none := by
  rw [visit, (gives_inFunction.mpr ⟨rfl, rfl⟩).bind_iff]
  cases s.frame with
  | none =>
    simp only [Option.isSome_none, Bool.false_eq_true, if_false, gives_bind, gives_pure]
    grind
  | some f => simp

theorem not_gives_visit_parameters : ¬Gives (visit (.seq stamp .parameters items)) s v s' := by
  rw [visit]
  simp

/-- A list of nodes is lowered for its effect only. -/
theorem not_gives_visit_seq {form : SeqForm} {u : Value} :
    ¬Gives (visit (.seq stamp form items)) s (some u) s' := by
  intro hu
  cases form with
  | program => simp [gives_visit_program] at hu
  | block => simp [gives_visit_block] at hu
  | parameters => exact not_gives_visit_parameters hu

theorem not_gives_visit_signature :
    ¬Gives (visit (.unary stamp (.signature name) params)) s v s' := by
  rw [visit]
  simp

/-- The scope and the body under construction are given up at the end. -/
theorem gives_insideFunction {step : LowerM Unit} :
    Gives (insideFunction name step) s u s' ↔
      ∃ t, Gives step { s with scope := name } () t ∧
        s' = { t with scope := "", frame := none } := by
  have hrun : insideFunction name step s =
      ((step { s with scope := name }).1,
        { (step { s with scope := name }).2 with scope := "", frame := none }) :=
    rfl
  unfold Gives
  rw [hrun]
  rcases (step { s with scope := name } : Except Stop Unit × State) with ⟨e | ⟨⟩, t⟩
  · simp
  · simp [eq_comm]

/-- A definition is lowered in four steps: its signature, its first block, its statements, and the
end of its body. -/
theorem gives_visit_definition {signature : Option Node} :
    Gives (visit (.ternary stamp .definition ret signature body)) s v s' ↔
      ∃ place name params t ps s₁ s₂ s₃ s₄, s.frame = none ∧
        signature = some (.unary place (.signature name) params) ∧ body = some t ∧
        Gives (declareFunction ret ⟨.signature, place.pos⟩ name params true)
          { s with scope := name } ps s₁ ∧
        Gives (openBody name ps) s₁ () s₂ ∧ Gives (visitBody (some t)) s₂ () s₃ ∧
        Gives (closeBody (.ternary stamp .definition ret signature body)) s₃ () s₄ ∧
        s' = { s₄ with scope := "", frame := none } ∧ v = none := by
  by_cases hparts : ∃ place name params t, signature =
    some (.unary place (.signature name) params) ∧ body = some t
  · obtain ⟨place, name, params, t, rfl, rfl⟩ := hparts
    rw [visit, (gives_inFunction.mpr ⟨rfl, rfl⟩).bind_iff]
    case heq => rfl
    by_cases hframe : s.frame = none
    · simp only [hframe, Option.isSome_none, Bool.false_eq_true, if_false, gives_bind, gives_pure,
        gives_insideFunction]
      constructor
      · rintro ⟨_, _, ⟨_, ⟨ps, s₁, hps, _, s₂, hopen, _, s₃, hbody, hclose⟩, rfl⟩, rfl, rfl⟩
        exact ⟨place, name, params, t, ps, s₁, s₂, s₃, _, trivial, rfl, rfl, hps, hopen, hbody,
          hclose, rfl, rfl⟩
      · rintro ⟨_, _, _, _, ps, s₁, s₂, s₃, s₄, -, h, ht, hps, hopen, hbody, hclose, rfl, rfl⟩
        cases h
        cases ht
        exact ⟨(), _, ⟨s₄, ⟨ps, s₁, hps, (), s₂, hopen, (), s₃, hbody, hclose⟩, rfl⟩, rfl, rfl⟩
    · simp [hframe, Option.isSome_iff_ne_none]
  · have hreject : visit (.ternary stamp .definition ret signature body) = (do
        if ← inFunction then
          rejectAt (.ternary stamp .definition ret signature body) .nestedDefinition
        rejectAt (.ternary stamp .definition ret signature body) .incompleteDefinition) := by
      rw [visit]
      intro place name params hsig hbody
      obtain ⟨t, ht⟩ := Option.isSome_iff_exists.mp hbody
      exact hparts ⟨place, name, params, t, hsig, ht⟩
    have hnot : ¬Gives (visit (.ternary stamp .definition ret signature body)) s v s' := by
      rw [hreject]
      simp
    refine iff_of_false hnot ?_
    rintro ⟨place, name, params, t, -, -, -, -, -, -, hsig, ht, -⟩
    exact hparts ⟨place, name, params, t, hsig, ht⟩

/-- Only an expression has a value. -/
theorem isStatement_of_gives_visit {u : Value}
    (h : Gives (visit (.binary stamp form left right)) s (some u) s') :
    form.isStatement = false := by
  cases form with
  | declaration => simp [gives_visit_declaration] at h
  | forward => simp [gives_visit_forward] at h
  | ifThen => simp [gives_visit_ifThen] at h
  | «while» => simp [gives_visit_while] at h
  | _ => rfl

/-! ## Inside functions -/

/-- A tree that has a value, if it can be lowered. -/
inductive Valued : Node → Prop
  | leaf {l : Stamp} {form : Leaf} : Valued (.leaf l form)
  | call {l : Stamp} {callee : String} {args : Option Node} : Valued (.unary l (.call callee) args)
  | binary {l : Stamp} {form : BinaryForm} {left right : Option Node}
    (hform : form.isStatement = false) :
    Valued (.binary l form left right)

theorem Valued.value {t : Node} (ht : Valued t) (hv : Gives (visit t) s v s') :
    ∃ u, v = some u := by
  cases ht with
  | leaf =>
    rcases gives_visit_leaf.mp hv with ⟨_, -, rfl, -⟩ | ⟨_, _, _, -, -, rfl, -⟩ <;> exact ⟨_, rfl⟩
  | call =>
    obtain ⟨_, _, _, w, -, -, -, hw⟩ := gives_visit_call.mp hv
    exact ⟨w, hw⟩
  | @binary _ form _ _ hstatement =>
    rcases form.view with ⟨ty, op, hform⟩ | ⟨op, hform⟩ | hform | rfl | rfl | rfl | rfl | rfl
    · obtain ⟨_, _, _, _, w, -, -, -, hw⟩ := (gives_visit_operator hform).mp hv
      exact ⟨w, hw⟩
    · obtain ⟨_, _, _, _, w, -, -, -, -, hw⟩ := (gives_visit_shift hform).mp hv
      exact ⟨w, hw⟩
    · exact absurd hv (not_gives_visit_unknown hform)
    · obtain ⟨_, _, _, _, w, _, _, -, -, -, -, hw⟩ := gives_visit_assign.mp hv
      exact ⟨_, hw⟩
    all_goals cases hstatement

theorem declares_of_gives_visit (hform : form = .declaration ∨ form = .forward)
    (hv : Gives (visit (.binary stamp form type names)) s v s') (hf : s.frame = some f) :
    ∃ x, Variable.ofNodes? type names = some x ∧ s.Declares x s' := by
  rcases hform with rfl | rfl
  · obtain ⟨x, hx, hdecl, -⟩ := gives_visit_declaration.mp hv
    exact ⟨x, hx, hdecl⟩
  · rcases gives_visit_forward.mp hv with ⟨x, hx, hdecl, -⟩ | ⟨_, _, _, _, -, hnone, -⟩
    · exact ⟨x, hx, hdecl⟩
    · simp [hf] at hnone

/-- Induction over the expressions and the statements; all other trees can only be lowered outside
of functions. -/
theorem inside_ind {motive : Node → Prop}
    (outside : ∀ t, (∀ s v s', Gives (visit t) s v s' → s.frame = none) → motive t)
    (expression : ∀ t, Valued t → motive t)
    (block : ∀ l items, (∀ t, some t ∈ items → motive t) → motive (.seq l .block items))
    (ret : ∀ l value, motive (.unary l .ret value))
    (declaration : ∀ l form type names, form = .declaration ∨ form = .forward →
      motive (.binary l form type names))
    (ifThen : ∀ l cond body, (∀ t, body = some t → motive t) → motive (.binary l .ifThen cond body))
    (loop : ∀ l cond body, (∀ t, body = some t → motive t) → motive (.binary l .while cond body))
    (ifThenElse : ∀ l cond body body', (∀ t, body = some t → motive t) →
      (∀ t, body' = some t → motive t) → motive (.ternary l .ifThenElse cond body body'))
    (t : Node) : motive t := by
  induction t using Tree.ind with
  | leaf l form => exact expression _ .leaf
  | seq l form items ih =>
    cases form with
    | program => exact outside _ fun s v s' hv => (gives_visit_program.mp hv).1
    | parameters => exact outside _ fun s v s' hv => absurd hv not_gives_visit_parameters
    | block => exact block l items ih
  | unary l form child ih ihArgs =>
    cases form with
    | signature name => exact outside _ fun s v s' hv => absurd hv not_gives_visit_signature
    | call callee => exact expression _ .call
    | ret => exact ret l child
  | binary l form left right ihl ihr =>
    cases form with
    | declaration => exact declaration l _ left right (.inl rfl)
    | forward => exact declaration l _ left right (.inr rfl)
    | ifThen => exact ifThen l left right ihr
    | «while» => exact loop l left right ihr
    | _ => exact expression _ (.binary rfl)
  | ternary l form first second third ih₁ ih₂ ih₃ =>
    cases form with
    | definition =>
      refine outside _ fun s v s' hv => ?_
      obtain ⟨_, _, _, _, _, _, _, _, _, hnone, -⟩ := gives_visit_definition.mp hv
      exact hnone
    | ifThenElse => exact ifThenElse l first second third ih₂ ih₃

end Lowering

end CSubset
