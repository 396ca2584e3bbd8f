import CSubset.Proofs.Dominance.Paths
import CSubset.Proofs.Lowering.Functions

/-!
# Types and operands of the intermediate representation

A function of a module is well typed (`Func.WellTyped`) if each instruction and each end of a block
takes operands of the types that it works on, and each operand belongs to the function: it is a
constant, a parameter or the result of an instruction of the same function, or a global variable of
the module. Only slots are loaded from and stored to, and every call names a function of the module.

Typing is kept when the function gets more blocks and instructions and the module more global
variables and functions (`Widens`).
-/

namespace CSubset.IR

variable {fn : Func} {m : Module} {elem : Ty} {v x : Value} {op : Op}

/-- The values that a function of module `m` can use. -/
inductive Value.Belongs (m : Module) (fn : Func) : Value → Prop where
  | const (c : Int32) : Value.Belongs m fn (.const c)
  | global {name : String} {elem : Ty} (h : ⟨name, elem⟩ ∈ m.globals) : Value.Belongs m fn
    (.global name elem)
  | param {i : Nat} {p : Param} (h : fn.params[i]? = some p) : Value.Belongs m fn (.param i p.ty)
  | result {i k : Nat} {x : Instr} (h : instrAt? fn.blocks i k = some x) :
    Value.Belongs m fn (.result x.number x.op.ty)

/-- The address of a slot that holds values of type `elem`: a global variable of the module, or what
an instruction of the same function has made. -/
inductive Value.IsSlot (m : Module) (fn : Func) (elem : Ty) : Value → Prop where
  | global {name : String} (h : ⟨name, elem⟩ ∈ m.globals) : Value.IsSlot m fn elem
    (.global name elem)
  | own {i k number align : Nat} {name : String}
    (h : instrAt? fn.blocks i k = some ⟨number, .alloca name elem align⟩) :
    Value.IsSlot m fn elem (.result number (.ptr elem))

theorem Value.IsSlot.ty (h : v.IsSlot m fn elem) : v.ty = .ptr elem := by
  cases h <;> rfl

theorem Value.IsSlot.belongs (h : v.IsSlot m fn elem) : v.Belongs m fn := by
  cases h with
  | global h => exact .global h
  | own h => exact .result h

theorem Value.IsSlot.operand (h : v.IsSlot m fn elem) : v.Belongs m fn ∧ v.ty ≠ .void :=
  ⟨h.belongs, by simp [h.ty]⟩

/-! ## Well-typed code

Each instruction by the types of its operands. -/

/-- The operands of a binary instruction. The amount of a shift is a constant. -/
def BinOp.Accepts : BinOp → Value → Value → Prop
  | .add, x, y | .sub, x, y | .mul, x, y | .sdiv, x, y | .srem, x, y | .xor, x, y =>
    x.ty = .i32 ∧ y.ty = .i32
  | .and, x, y | .or, x, y => x.ty = y.ty ∧ (x.ty = .i1 ∨ x.ty = .i32)
  | .shl, x, y | .ashr, x, y => x.ty = .i32 ∧ ∃ k : Int32, y = .const k ∧ 0 ≤ k ∧ k < 32

/-- What an instruction asks of its operands. The arguments of a call have the types of the
parameters; those beyond are numbers. -/
def Op.Accepts (m : Module) (fn : Func) : Op → Prop
  | .alloca _ elem _ => elem ≠ .void
  | .load elem slot => slot.IsSlot m fn elem
  | .store value slot => slot.IsSlot m fn value.ty
  | .binary op x y => op.Accepts x y
  | .icmp _ x y => x.ty = .i32 ∧ y.ty = .i32
  | .zext x target => x.ty = .i1 ∧ target = .i32
  | .call callee ret args => ∃ c, m.func? callee = some c ∧ c.ret = ret ∧
    ∀ (i : Nat) (arg : Value), args[i]? = some arg → arg.ty = (c.params.map (·.ty))[i]?.getD .i32

/-- What the end of a block asks of its operands. -/
def Term.Accepts (fn : Func) : Term → Prop
  | .ret none => fn.ret = .void
  | .ret (some value) => value.ty = fn.ret
  | .br _ => True
  | .condBr cond _ _ => cond.ty = .i1

structure Op.WellTyped (m : Module) (fn : Func) (op : Op) : Prop where
  accepts : op.Accepts m fn
  operands : ∀ v ∈ op.operands, v.Belongs m fn ∧ v.ty ≠ .void

structure Term.WellTyped (m : Module) (fn : Func) (t : Term) : Prop where
  accepts : t.Accepts fn
  operands : ∀ v ∈ t.operands, v.Belongs m fn ∧ v.ty ≠ .void

theorem Op.WellTyped.single (haccepts : op.Accepts m fn)
    (hop : op.operands = [x]) (hx : x.Belongs m fn ∧ x.ty ≠ .void) : op.WellTyped m fn := by
  refine ⟨haccepts, ?_⟩
  rw [hop]
  simpa using hx

theorem Op.WellTyped.pair {y : Value} (haccepts : op.Accepts m fn) (hop : op.operands = [x, y])
    (hx : x.Belongs m fn ∧ x.ty ≠ .void) (hy : y.Belongs m fn ∧ y.ty ≠ .void) :
    op.WellTyped m fn := by
  refine ⟨haccepts, ?_⟩
  rw [hop]
  simpa using ⟨hx, hy⟩

/-- The code of a function fits the module. The number of an instruction tells it from the
others. -/
structure Func.WellTyped (m : Module) (fn : Func) : Prop where
  numbers : ∀ i k x j l y, instrAt? fn.blocks i k = some x → instrAt? fn.blocks j l = some y →
    x.number = y.number → i = j ∧ k = l
  instrs : ∀ i k x, instrAt? fn.blocks i k = some x → x.op.WellTyped m fn
  ends : ∀ (i : Nat) (b : Block) (t : Term), fn.blocks[i]? = some b → b.term = some t →
    t.WellTyped m fn

/-! ## More code, more functions

What is well-typed stays so when functions and code are added. -/

/-- Module `m'` and its function `fn'` have all that `m` and `fn` have: the global variables,
functions of the same types, and the instructions. -/
structure Widens (m : Module) (fn : Func) (m' : Module) (fn' : Func) : Prop where
  globals : ∀ x ∈ m.globals, x ∈ m'.globals
  funcs : ∀ name c, m.func? name = some c →
    ∃ c', m'.func? name = some c' ∧ c'.ret = c.ret ∧ c'.params.map (·.ty) = c.params.map (·.ty)
  name : fn'.name = fn.name
  ret : fn'.ret = fn.ret
  params : fn'.params.map (·.ty) = fn.params.map (·.ty)
  blocks : Grow fn.blocks fn'.blocks

section Widens

variable {m m' m'' : Module} {fn fn' fn'' : Func} {v : Value}

theorem Widens.grow {blocks : List Block} (h : Grow fn.blocks blocks) :
    Widens m fn m { fn with blocks := blocks } :=
  ⟨fun _ h => h, fun _ c hc => ⟨c, hc, rfl, rfl⟩, rfl, rfl, rfl, h⟩

theorem Widens.refl (m : Module) (fn : Func) : Widens m fn m fn := .grow (.refl fn.blocks)

theorem Widens.trans (h₁ : Widens m fn m' fn') (h₂ : Widens m' fn' m'' fn'') :
    Widens m fn m'' fn'' where
  globals x hx := h₂.globals x (h₁.globals x hx)
  funcs name c hc := by
    obtain ⟨c', hc', hret', hparams'⟩ := h₁.funcs name c hc
    obtain ⟨c'', hc'', hret'', hparams''⟩ := h₂.funcs name c' hc'
    exact ⟨c'', hc'', hret''.trans hret', hparams''.trans hparams'⟩
  name := h₂.name.trans h₁.name
  ret := h₂.ret.trans h₁.ret
  params := h₂.params.trans h₁.params
  blocks := h₁.blocks.trans h₂.blocks

theorem Value.Belongs.widen (hv : v.Belongs m fn) (h : Widens m fn m' fn') : v.Belongs m' fn' := by
  cases hv with
  | const c => exact .const c
  | global hx => exact .global (h.globals _ hx)
  | @param i p hp =>
    have hty : (fn'.params.map (·.ty))[i]? = some p.ty := by
      rw [h.params, List.getElem?_map, hp, Option.map_some]
    rw [List.getElem?_map] at hty
    obtain ⟨p', hp', hty⟩ := Option.map_eq_some_iff.mp hty
    rw [← hty]
    exact .param hp'
  | result hx => exact .result (h.blocks.instrAt? hx)

theorem Value.IsSlot.widen {elem : Ty} (hv : v.IsSlot m fn elem) (h : Widens m fn m' fn') :
    v.IsSlot m' fn' elem := by
  cases hv with
  | global hx => exact .global (h.globals _ hx)
  | own hx => exact .own (h.blocks.instrAt? hx)

theorem Op.WellTyped.widen {op : Op} (hop : op.WellTyped m fn) (h : Widens m fn m' fn') :
    op.WellTyped m' fn' where
  accepts := by
    have haccepts := hop.accepts
    cases op with
    | load elem slot => exact Value.IsSlot.widen haccepts h
    | store value slot => exact Value.IsSlot.widen haccepts h
    | call callee ret args =>
      obtain ⟨c, hc, hret, hargs⟩ := haccepts
      obtain ⟨c', hc', hret', hparams'⟩ := h.funcs callee c hc
      refine ⟨c', hc', hret'.trans hret, ?_⟩
      rw [hparams']
      exact hargs
    | alloca | binary | icmp | zext => exact haccepts
  operands v hv := ⟨(hop.operands v hv).1.widen h, (hop.operands v hv).2⟩

theorem Term.WellTyped.widen {t : Term} (ht : t.WellTyped m fn) (h : Widens m fn m' fn') :
    t.WellTyped m' fn' where
  accepts := by
    have haccepts := ht.accepts
    unfold Term.Accepts at haccepts ⊢
    rw [h.ret]
    exact haccepts
  operands v hv := ⟨(ht.operands v hv).1.widen h, (ht.operands v hv).2⟩

/-- Code stays well typed if what is new in it is well typed. -/
theorem Func.WellTyped.widen (hfn : fn.WellTyped m) (h : Widens m fn m' fn')
    (hnumbers : ∀ i k x j l y, instrAt? fn'.blocks i k = some x → instrAt? fn'.blocks j l = some y →
      x.number = y.number → i = j ∧ k = l)
    (hinstrs : ∀ i k x, instrAt? fn'.blocks i k = some x → instrAt? fn.blocks i k = some x ∨
      x.op.WellTyped m' fn')
    (hends : ∀ (i : Nat) (b : Block) (t : Term), fn'.blocks[i]? = some b → b.term = some t →
      fn.blocks[i]? = some b ∨ t.WellTyped m' fn') : fn'.WellTyped m' where
  numbers := hnumbers
  instrs i k x hx := by
    rcases hinstrs i k x hx with hold | hnew
    · exact (hfn.instrs i k x hold).widen h
    · exact hnew
  ends i b t hb ht := by
    rcases hends i b t hb ht with hold | hnew
    · exact (hfn.ends i b t hold ht).widen h
    · exact hnew

/-- The same code in a wider module, with other names for the parameters. -/
theorem Func.WellTyped.move (hfn : fn.WellTyped m) (h : Widens m fn m' fn')
    (hblocks : fn'.blocks = fn.blocks) : fn'.WellTyped m' := by
  refine hfn.widen h ?_ ?_ ?_ <;> rw [hblocks]
  · exact hfn.numbers
  · exact fun i k x hx => .inl hx
  · exact fun i b t hb _ => .inl hb

end Widens

end CSubset.IR
