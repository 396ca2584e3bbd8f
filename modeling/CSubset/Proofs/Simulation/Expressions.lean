import CSubset.Proofs.Execution.Success
import CSubset.Proofs.Lowering.Functions
import CSubset.Proofs.Simulation.Context
import Mathlib.Data.List.Forall2

/-!
# Expressions

The code of an expression computes its value: if the execution of the tree gives one, the machine
runs the instructions that lowering the tree appended and then holds it (`computes_of_gives_visit`).

A value is held in the form that its type asks for (`Operand`): a number as itself, a truth value as
a bit. What lowering hands on for a node is a value of one of these forms, or the address of the
variable that the node names (`Represents`); loading and conversion make an operand of it
(`Represents.operand`).
-/

namespace CSubset

/-! ## Operators -/

open IR (Ty Value Op BinOp Pred)
open IR.Machine (Datum Activation Caller Config perform)
open Lowering (arithmeticOp comparisonPred booleanOp)

theorem onInts_arithmeticOp (conv : Convention) (op : ArithOp) (x y : Int32) :
    (arithmeticOp op).onInts conv x y = op.value? conv x y := by
  cases op with
  | add => exact (value?_add conv x y).symm
  | sub => exact (value?_sub conv x y).symm
  | mul => exact (value?_mul conv x y).symm
  | div => exact (value?_div conv x y).symm
  | mod => exact (value?_mod conv x y).symm

theorem onInts_shift {form : BinaryForm} {op : BinOp} {conv : Convention}
    (hform : form.shift? = some op) {x y : Int32} (hy : 0 ≤ y ∧ y < 32) :
    ∃ operation, form.operation? conv = some operation ∧ op.onInts conv x y = operation x y := by
  rcases form with _ | (op' | code) | _ | _ | _ | _ | _ | _ | _ <;>
    simp only [BinaryForm.shift?, reduceCtorEq] at hform
  refine ⟨_, rfl, ?_⟩
  cases op' <;> simp only [reduceCtorEq, Option.some.injEq] at hform <;> subst hform <;>
    simp only [BinOp.onInts, BitOp.value?, shiftAmount?, hy, and_self, if_true, Option.map_some]
  · rw [shiftLeft_eq hy.1 hy.2]
  · rw [shiftRight_eq hy.1 hy.2]

theorem holds_comparisonPred (op : CmpOp) (x y : Int32) :
    (comparisonPred op).holds x y = op.holds x y := by
  cases op <;> simp [comparisonPred, Pred.holds, CmpOp.holds, Int32.lt_iff_toInt_lt,
    Int32.le_iff_toInt_le, ← Int32.toInt_inj]

theorem onBools_booleanOp (op : BoolOp) (a b : Bool) :
    (booleanOp op).onBools a b = some (op.connect a b) := by
  cases op <;> rfl

section

variable {m : IR.Module} {conv : Convention} {outside : Outside} {n : Nat} {a : Activation}
  {callers : List Caller} {w : World} {x y : Value} {v : Int32} {d : Datum}

theorem perform_load {elem : Ty} (hx : a.value x = some d) (hd : IR.Machine.load a w d = some v) :
    perform m conv outside ⟨n, .load elem x⟩ a callers w =
      some (.running (a.setResult n (.int v)).next callers w) := by
  simp [perform, hx, hd]

theorem perform_store {j : Nat} (hy : a.int y = some v) (hx : a.value x = some (.cell j))
    (hj : j < a.cells.length) :
    perform m conv outside ⟨n, .store y x⟩ a callers w =
      some (.running (Activation.next { a with cells := a.cells.set j (some v) }) callers w) := by
  simp [perform, hx, hy, IR.Machine.store, hj]

theorem perform_zext {b : Bool} (hx : a.bool x = some b) :
    perform m conv outside ⟨n, .zext x .i32⟩ a callers w =
      some (.running (a.setResult n (.int (truth b))).next callers w) := by
  simp [perform, hx]

theorem perform_icmp {pred : Pred} {v' : Int32} (hx : a.int x = some v) (hy : a.int y = some v') :
    perform m conv outside ⟨n, .icmp pred x y⟩ a callers w =
      some (.running (a.setResult n (.bool (pred.holds v v'))).next callers w) := by
  simp [perform, hx, hy]

theorem perform_binary {op : BinOp} {d' e : Datum} (hx : a.value x = some d)
    (hy : a.value y = some d') (he : IR.Machine.compute conv op d d' = some e) :
    perform m conv outside ⟨n, .binary op x y⟩ a callers w =
      some (.running (a.setResult n e).next callers w) := by
  simp [perform, hx, hy, he]

end

namespace Simulation

open Lowering Execution
open IR (Term Instr Block Func Module instrAt? Grow)

variable {v : Int32} {stamp : Stamp} {ty want : Ty} {d : Datum} {form : BinaryForm}
  {left right t : Option Node} {p : Execution.Place} {vs : List Int32} {ys : List Value}
  {callee : String} {op : Value → Value → Op}

/-- What the machine holds for a number where an operand of this type is wanted. -/
def datum : Ty → Int32 → Datum
  | .i1, x => .bool (x ≠ 0)
  | _, x => .int x

/-- What an instruction of this type computes for a number. -/
inductive Encodes : Ty → Datum → Int32 → Prop where
  | number (x : Int32) : Encodes .i32 (.int x) x
  | truth (b : Bool) : Encodes .i1 (.bool b) (truth b)

theorem Encodes.eq_datum {x : Int32} (h : Encodes ty d x) : d = datum ty x := by
  cases h with
  | number => rfl
  | truth b => exact congrArg Datum.bool (truth_ne_zero b).symm

variable {C : Context} {s s' s₁ s₂ : State} {B : Bindings} {f g : Frame} {n k : Nat}
  {st st' : Store} {a a' : Activation} {callers : List Caller} {w : World} {x y u : Value}

/-- An operator computes what its form stands for. -/
theorem perform_operator {m : Module} {conv : Convention} {outside : Outside}
    {operation : Int32 → Int32 → Option Int32} (hform : form.instruction? = some (ty, op))
    (hoperation : form.operation? conv = some operation) {v' r : Int32} (hty : x.ty = ty)
    (hx : a.value x = some (datum ty v)) (hy : a.value y = some (datum ty v'))
    (hr : operation v v' = some r) :
    ∃ d, perform m conv outside ⟨n, op x y⟩ a callers w =
      some (.running (a.setResult n d).next callers w) ∧
      Encodes (op x y).ty d r := by
  -- on numbers, an instruction whose result is that of the operation
  have hints : ∀ bop : BinOp, op x y = .binary bop x y → ty = .i32 → bop.onInts conv v v' = some r →
      ∃ d, perform m conv outside ⟨n, op x y⟩ a callers w =
      some (.running (a.setResult n d).next callers w) ∧ Encodes (op x y).ty d r := by
    rintro bop hop rfl hbop
    refine ⟨.int r, ?_, by rw [hop, Op.ty, hty]; exact .number r⟩
    rw [hop]
    exact perform_binary hx hy (congrArg (Option.map Datum.int) hbop)
  rcases form with (op' | code) | (op' | code) | (op' | code) | (op' | code) | _ | _ | _ | _ | _ <;>
    simp only [BinaryForm.instruction?, reduceCtorEq] at hform
  case arithmetic.known =>
    obtain ⟨rfl, rfl⟩ : Ty.i32 = ty ∧ Op.binary (arithmeticOp op') = op := by simpa using hform
    obtain rfl := Option.some.inj hoperation
    exact hints (arithmeticOp op') rfl rfl (by rw [onInts_arithmeticOp, hr])
  case bitwise.known =>
    obtain rfl := Option.some.inj hoperation
    cases op' <;> simp only [reduceCtorEq, Option.some.injEq, Prod.mk.injEq] at hform <;>
      obtain ⟨rfl, rfl⟩ := hform <;> exact hints _ rfl rfl hr
  case comparison.known =>
    obtain ⟨rfl, rfl⟩ : Ty.i32 = ty ∧ Op.icmp (comparisonPred op') = op := by simpa using hform
    obtain rfl := Option.some.inj hoperation
    obtain rfl : truth (op'.holds v v') = r := Option.some.inj hr
    refine ⟨.bool (op'.holds v v'), ?_, .truth _⟩
    rw [← holds_comparisonPred]
    exact perform_icmp (by rw [Activation.int, hx]; rfl) (by rw [Activation.int, hy]; rfl)
  case boolean.known =>
    obtain ⟨rfl, rfl⟩ : Ty.i1 = ty ∧ Op.binary (booleanOp op') = op := by simpa using hform
    obtain rfl := Option.some.inj hoperation
    obtain rfl : truth (op'.connect (v ≠ 0) (v' ≠ 0)) = r := Option.some.inj hr
    refine ⟨.bool (op'.connect (v ≠ 0) (v' ≠ 0)), ?_, by rw [Op.ty, hty]; exact .truth _⟩
    exact perform_binary hx hy (congrArg (Option.map Datum.bool) (onBools_booleanOp op' _ _))

/-! ## Operands -/

/-- Operand `y` of this type holds the number `x`; it is the result of no instruction from number
`n` on. -/
structure Operand (a : Activation) (n : Nat) (ty : Ty) (y : Value) (x : Int32) : Prop where
  typed : y.ty = ty
  value : a.value y = some (datum ty x)
  below : ∀ k t, y = .result k t → k < n

/-- An operand keeps its value while what follows it runs. -/
theorem Operand.after (hy : Operand a n ty y v) (hafter : C.After callers f g st st' a a')
    (hn : n ≤ f.count) (hcount : f.count ≤ g.count) : Operand a' g.count ty y v where
  typed := hy.typed
  value := by
    rw [← hy.value]
    cases y with
    | const c => rfl
    | param i t => simp only [Activation.value, hafter.args]
    | result k t => exact hafter.kept k (Nat.lt_of_lt_of_le (hy.below k t rfl) hn)
    | global name elem => rfl
  below k t hk := by
    have := hy.below k t hk
    omega

theorem Operand.int (hy : Operand a n .i32 y v) : a.int y = some v := by
  simp [Activation.int, hy.value, datum, Datum.int?]

theorem Operand.bool (hy : Operand a n .i1 y v) : a.bool y = some (decide (v ≠ 0)) := by
  simp [Activation.bool, hy.value, datum, Datum.bool?]

/-- An appended instruction that computes a number is an operand from then on. -/
theorem Context.Ready.emit {op : Op} (hready : C.Ready f st a) (hs : s.frame = some f)
    (hemit : Gives (emit op) s y s') (hop : op.isSlot = false) (hs' : s'.frame = some g)
    (hcode : Grow g.blocks C.func.blocks)
    (hperform : perform C.target C.setting.conv C.outside ⟨f.count, op⟩ a callers st.world =
      some (.running (a.setResult f.count d).next callers st.world))
    (hd : Encodes op.ty d v) :
    ∃ a', C.After callers f g st st a a' ∧ Operand a' g.count op.ty y v := by
  obtain ⟨f', i, b, hf', hb, rfl, rfl⟩ := gives_emit.mp hemit
  obtain rfl := Option.mem_unique hs hf'
  obtain rfl := Option.some.inj hs'
  refine ⟨_, hready.compute hb hop hcode hperform, rfl, ?_, ?_⟩
  · rw [← hd.eq_datum]
    exact if_pos rfl
  · rintro k t ⟨⟩
    exact Nat.lt_succ_self _

/-- What the value of a lowered node says about the value of its tree. -/
inductive Represents (a : Activation) (n : Nat) (w : World) (u : Value) : Option Int32 → Prop where
  /-- A call that returned nothing. -/
  | nothing : Represents a n w u none
  /-- A call of a function that has no result. -/
  | void {v : Option Int32} (hty : u.ty = .void) : Represents a n w u v
  | number {v : Int32} (h : Operand a n .i32 u v) : Represents a n w u (some v)
  | bit {b : Bool} (h : Operand a n .i1 u (truth b)) : Represents a n w u (some (truth b))
  /-- The address of a variable that holds the value. -/
  | address {v : Int32} {d : Datum} (hty : u.ty = .ptr .i32) (hvalue : a.value u = some d)
    (hload : IR.Machine.load a w d = some v) : Represents a n w u (some v)

theorem Represents.of_encodes (h : Operand a n ty u v) (hd : Encodes ty d v) :
    Represents a n w u (some v) := by
  cases hd with
  | number => exact .number h
  | truth => exact .bit h

/-- A represented value, loaded and converted, is an operand. -/
theorem Represents.operand {t : Node} {h : Frame} (hu : Represents a f.count st.world u (some v))
    (hwant : want = .i32 ∨ want = .i1) (hready : C.Ready f st a) (hs : s.frame = some f)
    (hload : Gives (load u) s x s₁) (hcoerce : Gives (coerce t x want) s₁ y s')
    (hs' : s'.frame = some h) (hcode : Grow h.blocks C.func.blocks) :
    ∃ a', C.After callers f h st st a a' ∧ Operand a' h.count want y v := by
  obtain ⟨g, hfg, hs₁⟩ := (emits_of_gives_load hload).within hs
  obtain ⟨h', hgh, hwithin⟩ := (emits_of_gives_coerce hcoerce).within hs₁.frame
  obtain rfl := Option.mem_unique hs' hwithin.frame
  have hcode₁ : Grow g.blocks C.func.blocks := hgh.toExtends.grow.trans hcode
  -- the value after loading
  have hloaded : ∃ a₁, C.After callers f g st st a a₁ ∧
      (x.ty = .void ∨ Operand a₁ g.count .i32 x v ∨ ∃ b, v = truth b ∧
      Operand a₁ g.count .i1 x v) := by
    rcases gives_load.mp hload with ⟨elem, hty, hemit⟩ | ⟨hty, rfl, rfl⟩
    · cases hu with
      | void hvoid => simp [hty] at hvoid
      | number hnum => exact absurd hnum.typed (by simp [hty])
      | bit hbool => exact absurd hbool.typed (by simp [hty])
      | address haddr hvalue hmem =>
        obtain rfl : elem = .i32 := by simpa [hty] using haddr
        obtain ⟨a₁, hafter, hop⟩ := hready.emit hs hemit rfl hs₁.frame hcode₁
          (perform_load hvalue hmem) (.number v)
        exact ⟨a₁, hafter, .inr (.inl hop)⟩
    · obtain rfl := Option.mem_unique hs hs₁.frame
      refine ⟨a, .refl hready, ?_⟩
      cases hu with
      | void hvoid => exact .inl hvoid
      | number hnum => exact .inr (.inl hnum)
      | bit hbool => exact .inr (.inr ⟨_, rfl, hbool⟩)
      | address haddr => simp [haddr, Ty.pointee?] at hty
  obtain ⟨a₁, hafter₁, hx⟩ := hloaded
  -- then the conversion
  rcases gives_coerce.mp hcoerce with ⟨hty, rfl, rfl⟩ | ⟨hty, rfl, hemit⟩ | ⟨hty, rfl, hemit⟩
  · obtain rfl := Option.mem_unique hs₁.frame hs'
    refine ⟨a₁, hafter₁, ?_⟩
    rcases hx with hvoid | hnum | ⟨b, -, hbool⟩
    · rcases hwant with rfl | rfl <;> simp [hvoid] at hty
    · obtain rfl : want = .i32 := hty.symm.trans hnum.typed
      exact hnum
    · obtain rfl : want = .i1 := hty.symm.trans hbool.typed
      exact hbool
  · rcases hx with hvoid | hnum | ⟨b, rfl, hbool⟩
    · simp [hvoid] at hty
    · simp [hnum.typed] at hty
    · obtain ⟨a₂, hafter₂, hop⟩ := hafter₁.ready.emit hs₁.frame hemit rfl hs' hcode
        (perform_zext (hbool.bool.trans (congrArg some (truth_ne_zero b)))) (.number (truth b))
      exact ⟨a₂, hafter₁.trans hafter₂ hfg.toExtends.count, hop⟩
  · rcases hx with hvoid | hnum | ⟨b, rfl, hbool⟩
    · simp [hvoid] at hty
    · obtain ⟨a₂, hafter₂, hop⟩ := hafter₁.ready.emit hs₁.frame hemit rfl hs' hcode
        (perform_icmp hnum.int rfl) (.truth _)
      refine ⟨a₂, hafter₁.trans hafter₂ hfg.toExtends.count, hop.typed,
        hop.value.trans ?_, hop.below⟩
      exact congrArg (some ∘ Datum.bool) (truth_ne_zero _)
    · simp [hbool.typed] at hty

/-! ## Variables -/

/-- A place of the execution and the address of the same variable on the machine. -/
inductive Denotes (C : Context) (st : Store) (a : Activation) : Execution.Place → Value → Prop where
  | global (name : String) : Denotes C st a (.global name) (.global name .i32)
  | var {k r j : Nat} {v : Option Int32} (hlive : st.locals k = some v) (hr : C.layout k = some r)
    (hj : a.results r = some (.cell j)) (hcell : a.cells[j]? = some v) :
    Denotes C st a (.var k) (.result r (.ptr .i32))

/-- A name stands for the same variable on both sides, if that has come into being. -/
theorem denotes_of_place {name : String} {st₀ : Store} (hB : B.Tracks s f)
    (hlayout : B.Agrees C.layout) (hu : s.Resolves name u)
    (hp : Gives (place C.setting B.scope [name]) st₀ p st₀) (hvars : C.Vars st a)
    (hlive : ∀ k, p = .var k → st.locals k ≠ none) : Denotes C st a p u := by
  obtain ⟨-, hglobal, hlocal⟩ := hB.resolves hu
  obtain ⟨_, ⟨⟩, -, hp⟩ := gives_place.mp hp
  rw [B.index?_scope] at hp
  rcases hp with ⟨k, hk, rfl⟩ | ⟨hnone, -, rfl⟩
  · obtain ⟨⟨_, slot⟩, hfind, rfl⟩ := Option.map_eq_some_iff.mp hk
    obtain ⟨v, hv⟩ := Option.ne_none_iff_exists'.mp (hlive _ rfl)
    obtain ⟨r, j, hr, hj, hcell⟩ := hvars.cell _ v hv
    obtain rfl : slot = some r := (hlayout.find? hfind).symm.trans hr
    rw [hlocal _ r hfind]
    exact .var hv hr hj hcell
  · rw [hglobal (Option.map_eq_none_iff.mp hnone)]
    exact .global name

theorem Denotes.represents (hp : Denotes C st a p u) (hread : Gives (Execution.read p) st v st') :
    st' = st ∧ Represents a n st.world u (some v) := by
  cases hp with
  | global name =>
    obtain ⟨rfl, rfl⟩ := gives_read_global.mp hread
    exact ⟨rfl, .address rfl rfl rfl⟩
  | var hlive hr hj hcell =>
    obtain ⟨hv, rfl⟩ := gives_read_var.mp hread
    obtain rfl := Option.mem_unique hlive hv
    exact ⟨rfl, .address rfl hj (by simp [IR.Machine.load, hcell])⟩

/-- Writing to a place is storing at its address. -/
theorem Denotes.write {o : Unit} (hp : Denotes C st a p u) (hready : C.Ready f st a)
    (hwrite : Gives (write v p) st o st') (hs : s.frame = some f) (hs' : s'.frame = some g)
    (hemit : Gives (emit (.store y u)) s x s') (hcode : Grow g.blocks C.func.blocks)
    (hy : a.int y = some v) : ∃ a', C.After callers f g st st' a a' := by
  obtain ⟨f', i, b, hf', hb, -, rfl⟩ := gives_emit.mp hemit
  obtain rfl := Option.mem_unique hs hf'
  obtain rfl := Option.some.inj hs'
  cases hp with
  | global name =>
    obtain rfl := gives_write_global.mp hwrite
    refine ⟨a.next, hready.after hb hcode ?_ rfl rfl rfl rfl (fun _ _ => rfl)
      (hready.vars.congr rfl rfl rfl)⟩
    simp [perform, hy, Activation.value, IR.Machine.store]
  | @var k r j _ hlive hr hj hcell =>
    obtain ⟨hne, rfl⟩ := gives_write_var.mp hwrite
    have hlt : j < a.cells.length := (List.getElem?_eq_some_iff.mp hcell).1
    exact ⟨Activation.next { a with cells := a.cells.set j (some v) }, hready.after hb hcode
      (perform_store hy hj hlt) rfl rfl rfl rfl (fun _ _ => rfl) (hready.vars.write hne hr hj v)⟩

/-! ## Trees

By induction on the tree: the instructions that are lowered for a node compute what evaluating it
gives. -/

/-- The code of an expression computes what the execution of the tree gives. -/
def Computes (t : Node) : Prop :=
  ∀ s u s' f g B, Gives (visit t) s (some u) s' → B.Tracks s f → s'.frame = some g →
    ∀ C : Context, C.Covers s' g B → ∀ callers st v st' a, Gives (eval C.setting B.scope t) st v
    st' → C.Ready f st a → ∃ a', C.After callers f g st st' a a' ∧
    Represents a' g.count st'.world u v

theorem Computes.operand (ht : ∀ t', t = some t' → Computes t') (hwant : want = .i32 ∨ want = .i1)
    (hy : Gives (visitOperand want t) s y s') (hB : B.Tracks s f) (hs' : s'.frame = some g)
    (hC : C.Covers s' g B) (hv : Gives (evalOperand C.setting B.scope t) st v st')
    (hready : C.Ready f st a) :
    ∃ a', C.After callers f g st st' a a' ∧ Operand a' g.count want y v := by
  obtain ⟨t', u, s₁, x, s₂, rfl, hu, hx, hy⟩ := gives_visitOperand.mp hy
  obtain ⟨_, ⟨⟩, hv⟩ := gives_evalOperand.mp hv
  obtain ⟨g₁, hfg₁, hs₁⟩ := (emits_of_gives_visit t' s u s₁ hu).within hB.frame
  obtain ⟨g', -, hwithin⟩ :=
    ((emits_of_gives_load hx).trans (emits_of_gives_coerce hy)).within hs₁.frame
  obtain rfl := Option.mem_unique hs' hwithin.frame
  obtain ⟨a₁, hafter₁, hrep⟩ :=
    ht t' rfl s u s₁ f g₁ B hu hB hs₁.frame C (hC.before hwithin) callers st _ st' a hv hready
  obtain ⟨a₂, hafter₂, hop⟩ := hrep.operand hwant hafter₁.ready hs₁.frame hx hy hs' hC.code
  exact ⟨a₂, hafter₁.trans hafter₂ hs₁.grows.count, hop⟩

theorem Bindings.Tracks.operand (hB : B.Tracks s f)
    (hy : Gives (visitOperand want t) s y s') (hs' : s'.frame = some g) : B.Tracks s' g := by
  obtain ⟨g', hfg, rfl⟩ :=
    emits_of_gives_visitOperand (fun t _ => emits_of_gives_visit t) hy f hB.frame
  obtain rfl := Option.some.inj hs'
  exact hB.extend rfl rfl hfg.toExtends

/-- Operands in a list, the first one first. -/
theorem Computes.operands {ts : List (Option Node)} {types : List Ty}
    (hts : ∀ t, some t ∈ ts → Computes t) (htypes : ∀ ty ∈ types, ty = .i32)
    (hys : Gives (visitOperands types ts) s ys s') (hB : B.Tracks s f) (hs' : s'.frame = some g)
    (hC : C.Covers s' g B) (hvs : Gives (evalOperands C.setting B.scope ts) st vs st')
    (hready : C.Ready f st a) :
    ∃ a', C.After callers f g st st' a a' ∧ List.Forall₂ (Operand a' g.count .i32) ys vs := by
  induction ts generalizing types s f st a ys vs with
  | nil =>
    obtain ⟨rfl, rfl⟩ := gives_visitOperands_nil.mp hys
    obtain ⟨rfl, rfl⟩ := gives_evalOperands_nil.mp hvs
    obtain rfl := Option.mem_unique hB.frame hs'
    exact ⟨a, .refl hready, .nil⟩
  | cons t ts ih =>
    obtain ⟨y, s₁, rest, hy, hrest, rfl⟩ := gives_visitOperands_cons.mp hys
    obtain ⟨v, st₁, vs, hv, hrestVs, rfl⟩ := gives_evalOperands_cons.mp hvs
    have hwant : types.head?.getD .i32 = .i32 := by
      cases types with
      | nil => rfl
      | cons ty types => exact htypes ty List.mem_cons_self
    rw [hwant] at hy
    obtain ⟨g₁, hfg₁, hs₁⟩ := within_of_gives_visitOperand hy hB.frame
    have hB₁ := hB.operand hy hs₁.frame
    obtain ⟨g', -, hwithin⟩ :=
      (emits_of_gives_visitOperands (fun t _ => emits_of_gives_visit t) hrest).within hs₁.frame
    obtain rfl := Option.mem_unique hs' hwithin.frame
    obtain ⟨a₁, hafter₁, hop⟩ :=
      Computes.operand (fun t' ht' => hts t' (by simp [ht'])) (.inl rfl) hy hB hs₁.frame
        (hC.before hwithin) hv hready
    obtain ⟨a₂, hafter₂, hops⟩ := ih (fun t' ht' => hts t' (List.mem_cons_of_mem _ ht'))
      (fun ty hty => htypes ty (List.mem_of_mem_tail hty)) hrest hB₁ hrestVs hafter₁.ready
    exact ⟨a₂, hafter₁.trans hafter₂ hs₁.grows.count,
      .cons (hop.after hafter₂ (Nat.le_refl _) hwithin.grows.count) hops⟩

theorem mapM_int (h : List.Forall₂ (Operand a n .i32) ys vs) : ys.mapM a.int = some vs := by
  induction h with
  | nil => rfl
  | cons hy _ ih => simp [List.mapM_cons, hy.int, ih]

/-- A call of a function runs it to its end and takes up what it returned. -/
theorem Context.Ready.call {fn : Func} {v : Option Int32}
    (hready : C.Ready f st a) (hs : s.frame = some f) (hfn : C.source.func? callee = some fn)
    (hemit : Gives (Lowering.emit (.call fn.name fn.ret ys)) s u s') (hs' : s'.frame = some g)
    (hcode : Grow g.blocks C.func.blocks) (hys : List.Forall₂ (Operand a n .i32) ys vs)
    (hinvoke : Gives (invoke C.setting callee vs) st v st') :
    ∃ a', C.After callers f g st st' a a' ∧ Represents a' g.count st'.world u v := by
  obtain ⟨f', i, b, hf', hb, rfl, rfl⟩ := gives_emit.mp hemit
  obtain rfl := Option.mem_unique hs hf'
  obtain rfl := Option.some.inj hs'
  obtain ⟨hcall, hlocals⟩ := gives_invoke.mp hinvoke
  obtain rfl : fn.name = callee := IR.Module.func?_name hfn
  -- the machine of the callee is run to its end, which the context allows for
  obtain ⟨c, hc, hreach⟩ :=
    C.calls fn.name fn vs st.world v st'.world ⟨f.count, a.next⟩ callers hfn hcall
  have hstep : C.step (.running a callers st.world) = some c := by
    rw [hready.step_push hb hcode]
    simp [perform, mapM_int hys, hc]
  obtain ⟨hblock, hoffset⟩ := hready.at hb
  have hposition : ∃ i' b', (f.push i b (.call fn.name fn.ret ys)).Filling i' b' ∧
      a.next.block = i' ∧ a.next.offset = b'.instrs.length :=
    ⟨i, _, hb.push _, hblock, by simp [Activation.next, hoffset]⟩
  have hvars : C.Vars st' a.next := hready.vars.congr hlocals rfl rfl
  cases v with
  | none =>
    exact ⟨a.next, ⟨.step hstep hreach, ⟨hready.func, hposition, hvars⟩, rfl,
      fun _ _ => rfl⟩, .nothing⟩
  | some v =>
    refine ⟨a.next.setResult f.count (.int v),
      ⟨.step hstep hreach, ⟨hready.func, hposition, ?_⟩, rfl, ?_⟩, ?_⟩
    · exact hvars.setResult (Context.instrAt?_push hb hcode) rfl _
    · exact fun _ hk => if_neg (Nat.ne_of_lt hk)
    · rcases (C.types fn.name fn hfn).2 with hret | hret
      · exact .void hret
      · refine .number ⟨hret, if_pos rfl, ?_⟩
        rintro k t ⟨⟩
        exact Nat.lt_succ_self _

/-- The arguments are computed into registers, and both calls are answered alike. -/
theorem computes_call {args : Option Node}
    (hargs : ∀ l form items, args = some (.seq l form items) → ∀ t, some t ∈ items → Computes t) :
    Computes (.unary stamp (.call callee) args) := by
  intro s u s' f g B hu hB hs' C hC callers st v st' a hv hready
  obtain ⟨fn, ys, s₁, _, hfn, hys, hemit, ⟨⟩⟩ := gives_visit_call.mp hu
  obtain ⟨vs, st₁, hvs, hinvoke⟩ := gives_eval_call.mp hv
  have hfn : s.module.func? callee = some fn := by
    unfold State.callee? at hfn
    split at hfn
    · exact hfn
    · simp at hfn
  have hemits : s.Emits s₁ := by
    rcases gives_visitArgs.mp hys with ⟨_, items, rfl, hitems⟩ | ⟨-, -, rfl⟩
    · exact emits_of_gives_visitOperands (fun t _ => emits_of_gives_visit t) hitems
    · exact .refl _
  obtain ⟨g₁, hfg₁, hs₁⟩ := hemits.within hB.frame
  obtain ⟨g', hgg', hwithin⟩ := (emits_of_gives_emit rfl hemit).within hs₁.frame
  obtain rfl := Option.mem_unique hs' hwithin.frame
  have hC₁ : C.Covers s₁ g₁ B := hC.before hwithin
  have hsource : C.source.func? callee = some fn := by rwa [(hC₁.before hs₁).source]
  -- the arguments, of which there may be none
  have hcomputed : ∃ a₁, C.After callers f g₁ st st₁ a a₁ ∧
      List.Forall₂ (Operand a₁ g₁.count .i32) ys vs := by
    rcases gives_visitArgs.mp hys with ⟨_, items, rfl, hitems⟩ | ⟨hnone, rfl, rfl⟩
    · refine Computes.operands (hargs _ _ _ rfl) ?_ hitems hB hs₁.frame hC₁ hvs hready
      intro ty hty
      obtain ⟨p, hp, rfl⟩ := List.mem_map.mp hty
      exact (C.types callee fn hsource).1 p hp
    · obtain rfl := Option.mem_unique hB.frame hs₁.frame
      rw [evalArgs.eq_def] at hvs
      split at hvs
      next => exact absurd rfl (hnone _ _)
      next =>
        obtain ⟨rfl, rfl⟩ := gives_pure.mp hvs
        exact ⟨a, .refl hready, .nil⟩
  obtain ⟨a₁, hafter₁, hops⟩ := hcomputed
  obtain ⟨a₂, hafter₂, hrep⟩ := hafter₁.ready.call hs₁.frame hsource hemit hs' hC.code hops hinvoke
  exact ⟨a₂, hafter₁.trans hafter₂ hs₁.grows.count, hrep⟩

/-- The left operand keeps its register while the right one is computed. -/
theorem computes_operator (hform : form.instruction? = some (ty, op))
    (hleft : ∀ t, left = some t → Computes t) (hright : ∀ t, right = some t → Computes t) :
    Computes (.binary stamp form left right) := by
  intro s u s' f g B hu hB hs' C hC callers st v st' a hv hready
  have hassign : form ≠ .assign := by
    rintro rfl
    simp [BinaryForm.instruction?] at hform
  have hty : ty = .i32 ∨ ty = .i1 := by
    unfold BinaryForm.instruction? at hform
    split at hform <;> simp_all
  obtain ⟨x, s₁, y, s₂, _, hx, hy, hemit, ⟨⟩⟩ := (gives_visit_operator hform).mp hu
  obtain ⟨operation, v₁, st₁, v₂, r, hoperation, hv₁, hv₂, hr, rfl⟩ :=
    (gives_eval_operator hassign).mp hv
  have hslot : (op x y).isSlot = false := instruction?_isSlot hform x y
  obtain ⟨g₁, -, hs₁⟩ := within_of_gives_visitOperand hx hB.frame
  obtain ⟨g₂, -, hs₂⟩ := within_of_gives_visitOperand hy hs₁.frame
  obtain ⟨g', -, hwithin⟩ := (emits_of_gives_emit hslot hemit).within hs₂.frame
  obtain rfl := Option.mem_unique hs' hwithin.frame
  have hB₁ := hB.operand hx hs₁.frame
  have hC₂ : C.Covers s₂ g₂ B := hC.before hwithin
  obtain ⟨a₁, hafter₁, hop₁⟩ :=
    Computes.operand hleft hty hx hB hs₁.frame (hC₂.before hs₂) hv₁ hready
  obtain ⟨a₂, hafter₂, hop₂⟩ := Computes.operand hright hty hy hB₁ hs₂.frame hC₂ hv₂ hafter₁.ready
  have hop₁' := hop₁.after hafter₂ (Nat.le_refl _) hs₂.grows.count
  obtain ⟨d, hperform, hd⟩ :=
    perform_operator hform hoperation hop₁'.typed hop₁'.value hop₂.value hr
  obtain ⟨a₃, hafter₃, hop₃⟩ := hafter₂.ready.emit hs₂.frame hemit hslot hs' hC.code hperform hd
  exact ⟨a₃, (hafter₁.trans hafter₂ hs₁.grows.count).trans hafter₃
    (hs₁.grows.trans hs₂.grows).count, .of_encodes hop₃ hd⟩

theorem computes_shift {op : BinOp}
    (hform : form.shift? = some op) (hleft : ∀ t, left = some t → Computes t) :
    Computes (.binary stamp form left right) := by
  intro s u s' f g B hu hB hs' C hC callers st v st' a hv hready
  have hassign : form ≠ .assign := by
    rintro rfl
    simp [BinaryForm.shift?] at hform
  obtain ⟨x, s₁, place, k, _, hx, rfl, hk, hemit, ⟨⟩⟩ := (gives_visit_shift hform).mp hu
  obtain ⟨operation, v₁, st₁, v₂, r, hoperation, hv₁, hv₂, hr, rfl⟩ :=
    (gives_eval_operator hassign).mp hv
  obtain ⟨rfl, rfl⟩ : v₂ = k ∧ st' = st₁ := by
    obtain ⟨_, ⟨⟩, hv₂⟩ := gives_evalOperand.mp hv₂
    simpa [eval] using hv₂
  obtain ⟨g₁, -, hs₁⟩ := within_of_gives_visitOperand hx hB.frame
  obtain ⟨g', -, hwithin⟩ := (emits_of_gives_emit rfl hemit).within hs₁.frame
  obtain rfl := Option.mem_unique hs' hwithin.frame
  obtain ⟨a₁, hafter₁, hop₁⟩ :=
    Computes.operand hleft (.inl rfl) hx hB hs₁.frame (hC.before hwithin) hv₁ hready
  obtain ⟨_, hoperation', hvalue⟩ := @onInts_shift form op C.setting.conv hform v₁ v₂ hk
  obtain rfl := Option.mem_unique hoperation hoperation'
  obtain ⟨a₂, hafter₂, hop₂⟩ := hafter₁.ready.emit hs₁.frame hemit rfl hs' hC.code
    (perform_binary hop₁.value rfl (congrArg (Option.map Datum.int) (hvalue.trans hr)))
    (by rw [Op.ty, hop₁.typed]; exact .number r)
  exact ⟨a₂, hafter₁.trans hafter₂ hs₁.grows.count,
    .number (by simpa [Op.ty, hop₁.typed] using hop₂)⟩

/-- The slot of the target holds the value behind the store. -/
theorem computes_assign (hright : ∀ t, right = some t → Computes t) :
    Computes (.binary stamp .assign left right) := by
  intro s u s' f g B hu hB hs' C hC callers st v st' a hv hready
  obtain ⟨place, x, stars, slot, y, s₁, w, rfl, hslot, hy, hemit, ⟨⟩⟩ := gives_visit_assign.mp hu
  obtain ⟨_, _, _, p, v, st₁, o, ⟨⟩, hp, hvalue, hwrite, rfl⟩ := gives_eval_assign.mp hv
  obtain ⟨hslotTy, -⟩ := hB.resolves hslot
  rw [hslotTy] at hy
  obtain ⟨g₁, -, hs₁⟩ := within_of_gives_visitOperand hy hB.frame
  obtain ⟨g', -, hwithin⟩ := (emits_of_gives_emit rfl hemit).within hs₁.frame
  obtain rfl := Option.mem_unique hs' hwithin.frame
  obtain ⟨a₁, hafter₁, hop₁⟩ :=
    Computes.operand hright (.inl rfl) hy hB hs₁.frame (hC.before hwithin) hvalue hready
  have hlive : ∀ k, p = .var k → st₁.locals k ≠ none := by
    rintro k rfl
    exact (gives_write_var.mp hwrite).1
  have hdenotes := denotes_of_place hB hC.layout hslot hp hafter₁.ready.vars hlive
  obtain ⟨a₂, hafter₂⟩ := hdenotes.write hafter₁.ready hwrite hs₁.frame hs' hemit hC.code hop₁.int
  exact ⟨a₂, hafter₁.trans hafter₂ hs₁.grows.count,
    .number (hop₁.after hafter₂ (Nat.le_refl _) hwithin.grows.count)⟩

theorem computes_leaf {form : Leaf} : Computes (.leaf stamp form) := by
  intro s u s' f g B hu hB hs' C hC callers st v st' a hv hready
  rcases gives_visit_leaf.mp hu with ⟨c, rfl, ⟨⟩, rfl⟩ | ⟨x, stars, slot, rfl, hslot, ⟨⟩, rfl⟩
  · obtain rfl := Option.mem_unique hB.frame hs'
    rcases gives_eval_leaf.mp hv with ⟨_, ⟨⟩, rfl, rfl⟩ | ⟨_, _, _, _, ⟨⟩, -⟩
    exact ⟨a, .refl hready, .number ⟨rfl, rfl, by simp⟩⟩
  · obtain rfl := Option.mem_unique hB.frame hs'
    rcases gives_eval_leaf.mp hv with ⟨_, ⟨⟩, -⟩ | ⟨_, _, p, v, ⟨⟩, hp, hread, rfl⟩
    have hlive : ∀ k, p = .var k → st.locals k ≠ none := by
      rintro k rfl
      simp [(gives_read_var.mp hread).1]
    obtain ⟨rfl, hrep⟩ :=
      (denotes_of_place hB hC.layout hslot hp hready.vars hlive).represents hread
    exact ⟨a, .refl hready, hrep⟩

/-- The code of an expression computes its value. -/
theorem computes_of_gives_visit (t : Node) : Computes t := by
  induction t using Tree.ind with
  | leaf l form => exact computes_leaf
  | seq l form items ih => exact fun s u s' f g B hu => absurd hu not_gives_visit_seq
  | unary l form child ih ihArgs =>
    cases form with
    | signature name => exact fun s u s' f g B hu => absurd hu not_gives_visit_signature
    | ret =>
      intro s u s' f g B hu
      cases child <;> simp [gives_visit_return_none, gives_visit_return_some] at hu
    | call callee => exact computes_call ihArgs
  | binary l form left right ihl ihr =>
    rcases form.view with ⟨ty, op, hform⟩ | ⟨op, hform⟩ | hform | rfl | rfl | rfl | rfl | rfl
    · exact computes_operator hform ihl ihr
    · exact computes_shift hform ihl
    · exact fun s u s' f g B hu => absurd hu (not_gives_visit_unknown hform)
    · exact computes_assign ihr
    all_goals
      intro s u s' f g B hu
      simp [gives_visit_declaration, gives_visit_forward, gives_visit_ifThen,
        gives_visit_while] at hu
  | ternary l form first second third ih₁ ih₂ ih₃ =>
    intro s u s' f g B hu
    cases form <;> simp [gives_visit_definition, gives_visit_ifThenElse] at hu

end Simulation

end CSubset
