import CSubset.Proofs.Execution.Machine
import CSubset.Proofs.Simulation.Bindings

/-!
# Machine and tree side by side

The code of a function runs while its tree is executed. `Context` holds what both depend on and what
is known about the finished function; `Context.Ready` ties a state of the execution to an activation
of the function: the machine stands at the end of what has been lowered, and every variable that has
come into being has a cell of its own that holds the same.

Each kind of step has one lemma: an instruction that has just been appended is the next one to be
performed (`Context.Ready.step_push`), an end that a block has just been given is the next one to be
taken (`Context.Ready.step_finish`).
-/

namespace CSubset

namespace IR.Machine

variable {m : Module} {conv : Convention} {outside : Outside} {c c₁ c₂ : Config}

/-- The machine gets from the first configuration to the second. -/
def Reaches (m : Module) (conv : Convention) (outside : Outside) (c c' : Config) : Prop :=
  ∃ n, run m conv outside n c = c'

theorem Reaches.refl : Reaches m conv outside c c := ⟨0, rfl⟩

theorem Reaches.step (h : step m conv outside c = some c₁) (h₁ : Reaches m conv outside c₁ c₂) :
    Reaches m conv outside c c₂ := by
  obtain ⟨n, hn⟩ := h₁
  exact ⟨n + 1, by rw [run, h]; exact hn⟩

theorem Reaches.trans (h₁ : Reaches m conv outside c c₁) (h₂ : Reaches m conv outside c₁ c₂) :
    Reaches m conv outside c c₂ := by
  obtain ⟨n, hn⟩ := h₁
  induction n generalizing c with
  | zero =>
    obtain rfl : c = c₁ := hn
    exact h₂
  | succ n ih =>
    cases hstep : Machine.step m conv outside c with
    | none =>
      rw [run, hstep] at hn
      obtain rfl : c = c₁ := hn
      exact h₂
    | some c' =>
      rw [run, hstep] at hn
      exact .step hstep (ih hn)

end IR.Machine

namespace Simulation

open Lowering
open IR (Ty Value Op Term Instr Block Func Module instrAt? Grow)
open IR.Machine (Datum Activation Caller Config Reaches)
open Execution (Setting Store)

/-- A call of a function of module `source` that ends in the execution of trees ends in the same way
on the machine that runs module `target`. -/
def Answers (source target : Module) (outside : Outside) (S : Setting) : Prop :=
  ∀ callee fn args w v w' caller callers, source.func? callee = some fn → S.call callee args w =
    (.ok v, w') → ∃ c, IR.Machine.call target outside callee args caller callers w = some c ∧
    Reaches target S.conv outside c (IR.Machine.leave v w' (caller :: callers))

/-- A function of a lowered module and the execution of its tree. The body was lowered in module
`source`, which has become `target` in the end; `layout` gives for each declaration the number of
its slot. -/
structure Context where
  source : Module
  target : Module
  outside : Outside
  setting : Setting
  func : Func
  layout : Nat → Option Nat
  unique : ∀ i k x j l y, instrAt? func.blocks i k = some x → instrAt? func.blocks j l = some y →
    x.number = y.number → i = j ∧ k = l
  slots : ∀ k r, layout k = some r → ∃ i j name align, instrAt? func.blocks i j =
    some ⟨r, .alloca name .i32 align⟩
  injective : ∀ k l r, layout k = some r → layout l = some r → k = l
  types : ∀ callee fn, source.func? callee = some fn →
    (∀ p ∈ fn.params, p.ty = .i32) ∧ (fn.ret = .void ∨ fn.ret = .i32)
  calls : Answers source target outside setting

namespace Context

variable {C : Context} {s s' : State} {B B' : Bindings} {f g h : Frame} {i k n : Nat}
  {b : Block} {op : Op}
  {st st' st'' : Store} {a a' a'' : Activation} {callers : List Caller} {w : World}

abbrev step (C : Context) : Config → Option Config :=
  IR.Machine.step C.target C.setting.conv C.outside

abbrev Reaches (C : Context) : Config → Config → Prop :=
  IR.Machine.Reaches C.target C.setting.conv C.outside

/-- What has been lowered up to state `s` is part of the function. -/
structure Covers (C : Context) (s : State) (f : Frame) (B : Bindings) : Prop where
  source : C.source = s.module
  code : Grow f.blocks C.func.blocks
  layout : B.Agrees C.layout

theorem Covers.older (hC : C.Covers s f (B' ++ B)) : C.Covers s f B :=
  ⟨hC.source, hC.code, hC.layout.of_append⟩

theorem Covers.before (hC : C.Covers s' g B) (hs : s.Within s' f g) : C.Covers s f B :=
  ⟨hC.source.trans hs.module, hs.grows.grow.trans hC.code, hC.layout⟩

/-! ## Variables -/

/-- Every variable that has come into being has a cell of its own, which holds what the variable
does. -/
structure Vars (C : Context) (st : Store) (a : Activation) : Prop where
  cell : ∀ k v, st.locals k = some v →
    ∃ r j, C.layout k = some r ∧ a.results r = some (.cell j) ∧ a.cells[j]? = some v
  distinct : ∀ k l r q j, st.locals k ≠ none → st.locals l ≠ none → C.layout k = some r →
    C.layout l = some q → a.results r = some (.cell j) → a.results q = some (.cell j) → k = l

/-- Only the variables, the results and the cells count. -/
theorem Vars.congr (hvars : C.Vars st a) (hlocals : st'.locals = st.locals)
    (hresults : a'.results = a.results) (hcells : a'.cells = a.cells) : C.Vars st' a' := by
  refine ⟨?_, ?_⟩
  · rw [hlocals, hresults, hcells]
    exact hvars.cell
  · rw [hlocals, hresults]
    exact hvars.distinct

/-- The result of an instruction that makes no slot. -/
theorem Vars.setResult (hvars : C.Vars st a) (hinstr : instrAt? C.func.blocks i k = some ⟨n, op⟩)
    (hop : op.isSlot = false) (d : Datum) : C.Vars st (a.setResult n d) := by
  -- slots have other numbers
  have hother : ∀ l r, C.layout l = some r → (a.setResult n d).results r = a.results r := by
    intro l r hr
    have hne : r ≠ n := by
      rintro rfl
      obtain ⟨i', k', name, align, hslot⟩ := C.slots l r hr
      obtain ⟨rfl, rfl⟩ := C.unique _ _ _ _ _ _ hinstr hslot rfl
      rw [hinstr] at hslot
      obtain rfl : op = .alloca name .i32 align := by simpa using hslot
      simp [Op.isSlot] at hop
    exact if_neg hne
  refine ⟨?_, ?_⟩
  · intro l v hv
    obtain ⟨r, j, hr, hj, hcell⟩ := hvars.cell l v hv
    exact ⟨r, j, hr, (hother l r hr).trans hj, hcell⟩
  · intro l m r q j hl hm hr hq hrj hqj
    rw [hother l r hr] at hrj
    rw [hother m q hq] at hqj
    exact hvars.distinct l m r q j hl hm hr hq hrj hqj

/-- A declaration makes a new cell. -/
theorem Vars.allocate (hvars : C.Vars st a) {r : Nat} (hr : C.layout k = some r) :
    C.Vars (st.setLocal k C.setting.conv.fresh) (a.allocate C.setting.conv r) := by
  -- the cells of the other variables are older
  have hother : ∀ l v, l ≠ k → st.locals l = some v → ∃ q j, C.layout l = some q ∧
      (a.allocate C.setting.conv r).results q = some (.cell j) ∧ j < a.cells.length ∧
      a.cells[j]? = some v := by
    intro l v hl hv
    obtain ⟨q, j, hq, hj, hcell⟩ := hvars.cell l v hv
    have hne : q ≠ r := by
      rintro rfl
      exact hl (C.injective l k q hq hr)
    exact ⟨q, j, hq, (if_neg hne).trans hj, (List.getElem?_eq_some_iff.mp hcell).1, hcell⟩
  have hnew : (a.allocate C.setting.conv r).results r = some (.cell a.cells.length) := if_pos rfl
  have hlocal : ∀ l, l ≠ k → (st.setLocal k C.setting.conv.fresh).locals l = st.locals l :=
    fun l hl => if_neg hl
  refine ⟨?_, ?_⟩
  · intro l v hv
    by_cases hl : l = k
    · subst hl
      obtain rfl : C.setting.conv.fresh = v := by simpa [Store.setLocal] using hv
      exact ⟨r, a.cells.length, hr, hnew, by simp [Activation.allocate]⟩
    · obtain ⟨q, j, hq, hj, hlt, hcell⟩ := hother l v hl (hlocal l hl ▸ hv)
      exact ⟨q, j, hq,
        hj, by simpa [Activation.allocate, List.getElem?_append_left hlt] using hcell⟩
  · -- where two variables would share a cell, both are old or both are the new one
    have hsplit : ∀ l q j, (st.setLocal k C.setting.conv.fresh).locals l ≠ none →
        C.layout l = some q → (a.allocate C.setting.conv r).results q = some (.cell j) →
        (l = k ∧ j = a.cells.length) ∨
        (l ≠ k ∧ st.locals l ≠ none ∧ a.results q = some (.cell j) ∧ j < a.cells.length) := by
      intro l q j hlive hq hj
      by_cases hl : l = k
      · subst hl
        obtain rfl := Option.mem_unique hr hq
        exact .inl ⟨rfl, by simpa [eq_comm] using hnew.symm.trans hj⟩
      · rw [hlocal l hl] at hlive
        obtain ⟨v, hv⟩ := Option.ne_none_iff_exists'.mp hlive
        obtain ⟨q', j', hq', hj', hlt, hcell⟩ := hother l v hl hv
        obtain rfl := Option.mem_unique hq hq'
        obtain rfl : j = j' := by simpa using hj.symm.trans hj'
        have hne : q ≠ r := by
          rintro rfl
          exact hl (C.injective l k q hq hr)
        exact .inr ⟨hl, hlive, (if_neg hne).symm.trans hj, hlt⟩
    intro l m q q' j hl hm hq hq' hj hj'
    rcases hsplit l q j hl hq hj with ⟨rfl, rfl⟩ | ⟨-, hl', hqj, hlt⟩ <;>
      rcases hsplit m q' _ hm hq' hj' with ⟨rfl, hlast⟩ | ⟨-, hm', hqj', hlt'⟩
    · rfl
    · omega
    · omega
    · exact hvars.distinct l m q q' j hl' hm' hq hq' hqj hqj'

/-- A variable that has come into being is given a value. -/
theorem Vars.write (hvars : C.Vars st a) {r j : Nat} (hlive : st.locals k ≠ none)
    (hr : C.layout k = some r) (hj : a.results r = some (.cell j)) (v : Int32) :
    C.Vars (st.setLocal k (some v)) { a with cells := a.cells.set j (some v) } := by
  have hlocal : ∀ l, l ≠ k → (st.setLocal k (some v)).locals l = st.locals l :=
    fun l hl => if_neg hl
  have hwas : ∀ l, (st.setLocal k (some v)).locals l ≠ none → st.locals l ≠ none := by
    intro l hl
    by_cases h : l = k
    · rwa [h]
    · rwa [hlocal l h] at hl
  refine ⟨?_, ?_⟩
  · intro l x hx
    by_cases hl : l = k
    · subst hl
      obtain rfl : some v = x := by simpa [Store.setLocal] using hx
      obtain ⟨y, hy⟩ := Option.ne_none_iff_exists'.mp hlive
      obtain ⟨r', j', hr', hj', hcell⟩ := hvars.cell l y hy
      obtain rfl := Option.mem_unique hr hr'
      obtain rfl : j = j' := by simpa using hj.symm.trans hj'
      exact ⟨r, j, hr, hj, List.getElem?_set_self (List.getElem?_eq_some_iff.mp hcell).1⟩
    · rw [hlocal l hl] at hx
      obtain ⟨q, j', hq, hj', hcell⟩ := hvars.cell l x hx
      have hne : j ≠ j' := by
        rintro rfl
        exact hl (hvars.distinct l k q r j (by simp [hx]) hlive hq hr hj' hj)
      exact ⟨q, j', hq, hj', (List.getElem?_set_ne hne).trans hcell⟩
  · intro l m q q' j' hl hm
    exact hvars.distinct l m q q' j' (hwas l hl) (hwas m hm)

/-! ## Positions -/

/-- The machine stands at the end of what frame `f` has, and its variables are those of the
execution. -/
structure Ready (C : Context) (f : Frame) (st : Store) (a : Activation) : Prop where
  func : a.func = C.func
  position : ∃ i b, f.Filling i b ∧ a.block = i ∧ a.offset = b.instrs.length
  vars : C.Vars st a

theorem Ready.isOpen (hready : C.Ready f st a) : f.isOpen = true := by
  obtain ⟨i, b, hb, -⟩ := hready.position
  exact Frame.isOpen_iff.mpr ⟨i, b, hb⟩

theorem Ready.at (hready : C.Ready f st a) (hb : f.Filling i b) :
    a.block = i ∧ a.offset = b.instrs.length := by
  obtain ⟨j, c, hc, hblock, hoffset⟩ := hready.position
  obtain ⟨rfl, rfl⟩ := hb.unique hc
  exact ⟨hblock, hoffset⟩

/-- Frames that fill the same block in the same way. -/
theorem Ready.same (hready : C.Ready f st a) (hb : f.Filling i b) (hg : g.Filling i b) :
    C.Ready g st a :=
  ⟨hready.func, ⟨i, b, hg, hready.at hb⟩, hready.vars⟩

theorem instrAt?_push (hb : f.Filling i b) (hcode : Grow (f.push i b op).blocks C.func.blocks) :
    instrAt? C.func.blocks i b.instrs.length = some ⟨f.count, op⟩ :=
  hcode.instrAt? ((Frame.instrAt?_push hb).mpr (.inr ⟨rfl, rfl, rfl⟩))

/-- The instruction that has been appended is performed next. -/
theorem Ready.step_push (hready : C.Ready f st a) (hb : f.Filling i b)
    (hcode : Grow (f.push i b op).blocks C.func.blocks) :
    C.step (.running a callers w) =
      IR.Machine.perform C.target C.setting.conv C.outside ⟨f.count, op⟩ a callers w := by
  obtain ⟨hblock, hoffset⟩ := hready.at hb
  obtain ⟨c, hc, hinstr⟩ := Option.bind_eq_some_iff.mp (instrAt?_push hb hcode)
  unfold step IR.Machine.step
  simp only [hready.func, hblock, hc, hoffset, hinstr, Option.bind_eq_bind, Option.bind_some]

/-- The end that the block has been given is taken next. -/
theorem Ready.step_finish (hready : C.Ready f st a) (hb : f.Filling i b) {t : Term}
    (hcode : Grow (f.finish i b t).blocks C.func.blocks) :
    C.step (.running a callers w) = IR.Machine.finish t a callers w := by
  obtain ⟨hblock, hoffset⟩ := hready.at hb
  obtain ⟨c, hc, hgrows⟩ := hcode i { b with term := some t } (List.getElem?_set_self hb.lt)
  obtain rfl := hgrows.closed (by simp)
  unfold step IR.Machine.step
  simp [hready.func, hblock, hc, hoffset]

/-- The machine has gone on to a block that is still empty. -/
theorem Ready.goto (hready : C.Ready f st a) (hk : g.Waits k) :
    C.Ready (g.moveTo (some k)) st (a.goto k) := by
  obtain ⟨label, hb⟩ := hk.filling
  exact ⟨hready.func, ⟨k, _, hb, rfl, rfl⟩, hready.vars.congr rfl rfl rfl⟩

/-! ## Expressions -/

/-- From `a` the machine gets to `a'` by what was lowered between the frames `f` and `g`, while the
execution goes from `st` to `st'`. The results that were there before stay. -/
structure After (C : Context) (callers : List Caller) (f g : Frame) (st st' : Store)
    (a a' : Activation) : Prop where
  reaches : C.Reaches (.running a callers st.world) (.running a' callers st'.world)
  ready : C.Ready g st' a'
  args : a'.args = a.args
  kept : ∀ k < f.count, a'.results k = a.results k

theorem After.refl (hready : C.Ready f st a) : C.After callers f f st st a a :=
  ⟨.refl, hready, rfl, fun _ _ => rfl⟩

theorem After.trans (h₁ : C.After callers f g st st' a a')
    (h₂ : C.After callers g h st' st'' a' a'') (hcount : f.count ≤ g.count) :
    C.After callers f h st st'' a a'' where
  reaches := h₁.reaches.trans h₂.reaches
  ready := h₂.ready
  args := h₂.args.trans h₁.args
  kept k hk := (h₂.kept k (Nat.lt_of_lt_of_le hk hcount)).trans (h₁.kept k hk)

/-- One step of the machine performs the appended instruction. -/
theorem Ready.after (hready : C.Ready f st a) (hb : f.Filling i b)
    (hcode : Grow (f.push i b op).blocks C.func.blocks)
    (hperform : IR.Machine.perform C.target C.setting.conv C.outside ⟨f.count, op⟩ a callers
      st.world = some (.running a'.next callers st'.world)) (hfunc : a'.func = a.func)
    (hblock : a'.block = a.block) (hoffset : a'.offset = a.offset) (hargs : a'.args = a.args)
    (hkept : ∀ k < f.count, a'.results k = a.results k) (hvars : C.Vars st' a') :
    C.After callers f (f.push i b op) st st' a a'.next := by
  obtain ⟨hat, hoff⟩ := hready.at hb
  refine ⟨.step ((hready.step_push hb hcode).trans hperform) .refl,
    ⟨hfunc.trans hready.func, ?_, ?_⟩, hargs, hkept⟩
  · refine ⟨i, _, hb.push op, hblock.trans hat, ?_⟩
    simp [Activation.next, hoffset, hoff]
  · exact hvars.congr rfl rfl rfl

/-- One step of the machine computes the result of the appended instruction. -/
theorem Ready.compute (hready : C.Ready f st a) (hb : f.Filling i b) (hop : op.isSlot = false)
    (hcode : Grow (f.push i b op).blocks C.func.blocks) {d : Datum}
    (hperform : IR.Machine.perform C.target C.setting.conv C.outside ⟨f.count, op⟩ a callers
      st.world = some (.running (a.setResult f.count d).next callers st.world)) :
    C.After callers f (f.push i b op) st st a (a.setResult f.count d).next :=
  hready.after hb hcode hperform rfl rfl rfl rfl (fun _ hk => if_neg (Nat.ne_of_lt hk))
    (hready.vars.setResult (instrAt?_push hb hcode) hop d)

end Context

end Simulation

end CSubset
