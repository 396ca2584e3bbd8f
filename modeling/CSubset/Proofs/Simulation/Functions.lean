import CSubset.Proofs.Lowering.Program
import CSubset.Proofs.Simulation.Statements

/-!
# Functions

A function's code first makes a slot for each parameter and stores the argument there, then it does
what the statements of the body do (`Body.reaches`).
-/

namespace CSubset.Simulation

open Lowering Execution
open IR (Ty Value Op Term Instr Block Func Param Module instrAt? Grow)
open IR.Machine (Datum Activation Caller Config perform)

variable {C : Context} {s s' : State} {B : Bindings} {f g : Frame} {i : Nat} {b : Block}
  {a : Activation} {callers : List Caller} {w : World} {args : List Int32} {n : Nat}
  {ps : List Param} {fn : Func} {func name : String} {items : List (Option Node)} {m : Module}
  {t t₁ t₂ : State} {v : Int32}

/-! ## Parameters -/

/-- The first `n` parameters hold their arguments, and no other variable has come into being. -/
def argStore (w : World) (args : List Int32) (n : Nat) : Store :=
  ⟨w, fun k => if k < n then args[k]?.map some else none⟩

theorem argStore_length (w : World) (args : List Int32) :
    argStore w args args.length = ⟨w, fun k => args[k]?.map some⟩ := by
  refine congrArg (Store.mk w) (funext fun k => ?_)
  by_cases hk : k < args.length
  · exact if_pos hk
  · rw [if_neg hk, List.getElem?_eq_none (Nat.le_of_not_lt hk)]
    rfl

theorem argStore_succ (hv : args[n]? = some v) (contents : Option Int32) :
    argStore w args (n + 1) = ((argStore w args n).setLocal n contents).setLocal n (some v) := by
  refine congrArg (Store.mk w) (funext fun k => ?_)
  by_cases hk : k = n
  · simp [hk, hv]
  · have hlt : k < n + 1 ↔ k < n := by omega
    simp [Store.setLocal, argStore, hk, hlt]

/-- The slot of a parameter is made and the argument stored. -/
theorem Context.Ready.storeParam {p : Param} (hready : C.Ready f (argStore w args n) a)
    (hb : f.Filling i b) (hargs : a.args = args) (hv : args[n]? = some v)
    (hg : (s.storeParam func n p f i b).frame = some g) (hcode : Grow g.blocks C.func.blocks)
    (hlayout : C.layout n = some f.count) :
    ∃ a', C.Reaches (.running a callers w) (.running a' callers w) ∧
      C.Ready g (argStore w args (n + 1)) a' ∧
      a'.args = args := by
  obtain rfl := Option.some.inj hg
  have hb₁ := hb.useName (p.name ++ ".addr")
  have hb₂ := hb₁.push (.alloca (f.freshName (p.name ++ ".addr")) p.ty 4)
  have halloca : C.After callers (f.useName (p.name ++ ".addr")) _ (argStore w args n)
      ((argStore w args n).setLocal n C.setting.conv.fresh) a
      (a.allocate C.setting.conv f.count).next :=
    (hready.same hb hb₁).after hb₁ ((Frame.extends_push hb₂ _).grow.trans hcode) rfl rfl rfl rfl rfl
      (fun _ hk => if_neg (Nat.ne_of_lt hk)) (hready.vars.allocate hlayout)
  have hcell : (a.allocate C.setting.conv f.count).next.results f.count =
      some (.cell a.cells.length) :=
    if_pos rfl
  have hparam : (a.allocate C.setting.conv f.count).next.int (.param n p.ty) = some v := by
    have hvalue : (a.allocate C.setting.conv f.count).next.value (.param n p.ty) =
        args[n]?.map .int := by
      rw [← hargs]; rfl
    rw [Activation.int, hvalue, hv]
    rfl
  have hlt : a.cells.length < (a.allocate C.setting.conv f.count).next.cells.length := by
    simp [Activation.next, Activation.allocate]
  have hvars := halloca.ready.vars.write (k := n) (by simp [Store.setLocal]) hlayout hcell v
  rw [← argStore_succ hv] at hvars
  have hstore : C.After callers _ _ _ (argStore w args (n + 1)) _ _ :=
    halloca.ready.after hb₂ hcode (perform_store hparam hcell hlt) rfl rfl rfl rfl
      (fun _ _ => rfl) hvars
  exact ⟨_, halloca.reaches.trans hstore.reaches, hstore.ready, hargs⟩

/-- The code that stores the parameters. -/
theorem params_of_gives_storeParams {u : Unit} (hs : Gives (storeParams func n ps) s u s')
    (hB : B.Tracks s f) (hfunc : f.func = func) (hn : B.length = n)
    (htypes : ∀ p ∈ ps, p.ty = .i32) :
    ∃ new g, Bindings.scope new = (ps.map (·.name)).reverse ∧ Bindings.Tracks (new ++ B) s' g ∧
      ∀ C : Context, C.Covers s' g (new ++ B) → ∀ callers args w a, args.length = n + ps.length →
        a.args = args →
        C.Ready f (argStore w args n) a →
        ∃ a', C.Reaches (.running a callers w) (.running a' callers w) ∧
          C.Ready g (argStore w args args.length) a' := by
  induction ps generalizing s f B n with
  | nil =>
    obtain rfl := gives_storeParams_nil.mp hs
    refine ⟨[], f, rfl, hB, ?_⟩
    intro C hC callers args w a hlength hargs hready
    exact ⟨a, .refl, by rwa [hlength]⟩
  | cons p ps ih =>
    obtain ⟨f', i, b, hf', hb, hrest⟩ := gives_storeParams_cons.mp hs
    obtain rfl := Option.mem_unique hB.frame hf'
    have hb₁ := hb.useName (p.name ++ ".addr")
    obtain ⟨x, ty⟩ := p
    obtain rfl : ty = .i32 := htypes _ List.mem_cons_self
    have hB₁ : Bindings.Tracks ((x, some f.count) :: B) (s.storeParam func n ⟨x, .i32⟩ f i b) _ :=
      hB.declare hb (Frame.extends_push (hb₁.push _) _) rfl (by rw [hfunc]; rfl)
    obtain ⟨new, g, hnew, hBg, hrun⟩ := ih hrest hB₁ hfunc (by simp [hn])
      fun q hq => htypes q (List.mem_cons_of_mem _ hq)
    refine ⟨new ++ [(x, some f.count)], g, ?_, by rwa [List.append_assoc], ?_⟩
    · rw [List.map_cons, List.reverse_cons, ← hnew]
      exact List.map_append ..
    intro C hC callers args w a hlength hargs hready
    rw [List.append_assoc] at hC
    obtain ⟨_, hwithin⟩ := within_of_gives_storeParams hrest hB₁.frame hfunc
    obtain rfl := Option.mem_unique hwithin.frame hBg.frame
    have hC₁ := (hC.before hwithin).older
    -- the slot of the parameter is where the layout has it
    have hlayout : C.layout n = some f.count := hn ▸ hC₁.layout.1
    have hlt : n < args.length := by
      rw [hlength, List.length_cons]
      omega
    obtain ⟨a₁, hreach, hready₁, hargs₁⟩ :=
      hready.storeParam hb hargs (List.getElem?_eq_getElem hlt) hB₁.frame
        hC₁.code hlayout
    obtain ⟨a₂, hreach₂, hready₂⟩ :=
      hrun C hC callers args w a₁ (by rw [hlength, List.length_cons]; omega) hargs₁ hready₁
    exact ⟨a₂, hreach.trans hreach₂, hready₂⟩

/-! ## Bodies -/

theorem Body.tracks (h : Body name ps items m fn t t₁ t₂ f g)
    (hret : fn.ret = .void ∨ fn.ret = .i32) : Bindings.Tracks [] t f := by
  have hempty := h.instrAt?_start
  refine ⟨h.start, ⟨by simp [hempty], by simp [hempty]⟩,
    h.ret ▸ hret, by simp [Bindings.find?], ?_, ?_, by simp, by simp⟩
  · intro x _ slot owner hx
    rw [h.func]
    exact h.owned x slot owner (State.mem_symbols hx)
  · intro x slot owner hx howner
    rcases h.owned x slot owner (State.mem_symbols hx) with ⟨-, rfl⟩ | ⟨func, hfunc, rfl⟩
    · rfl
    · rw [h.func] at howner
      simp [hfunc] at howner

/-- The finished function as the context of its own body. -/
def Body.context {name : String} {ps : List Param} {items : List (Option Node)} {m : Module}
    {fn : Func} {t t₁ t₂ : State} (h : Body name ps items m fn t t₁ t₂ f g) (hB : B.Tracks t₂ g)
    (outside : Outside) (S : Setting) (hcalls : Answers m m outside S) : Context where
  source := t.module
  target := m
  outside := outside
  setting := S
  func := fn
  layout := B.layout
  unique := by
    rw [h.blocks]
    exact ((Frame.extends_endWith g _).numbered hB.numbered).unique
  slots k r hr := by
    obtain ⟨x, hx⟩ := Bindings.mem_of_layout hr
    obtain ⟨i, j, name, align, hinstr⟩ := hB.slots x r hx
    exact ⟨i, j, name,
      align, by rw [h.blocks]; exact (Frame.extends_endWith g _).grow.instrAt? hinstr⟩
  injective _ _ _ := Bindings.layout_injective hB.nodup
  types := h.types
  calls callee fn' args w v w' caller callers hfn' hcall := by
    obtain ⟨fn'', hfn'', -⟩ := h.callees callee fn' hfn'
    exact hcalls callee fn'' args w v w' caller callers hfn'' hcall

/-- The machine runs the code of a body to its end and returns what the execution of the body
does. -/
theorem Body.reaches (h : Body name ps items m fn t t₁ t₂ f g)
    (hret : fn.ret = .void ∨ fn.ret = .i32) (htypes : ∀ p ∈ ps, p.ty = .i32) {outside : Outside}
    {S : Setting} (hcalls : Answers m m outside S) (hlength : args.length = ps.length) {flow : Flow}
    {st : Store}
    (hexec : Gives (execItems S (Scope.add [] (ps.map (·.name))) items)
      ⟨w, fun k => args[k]?.map some⟩ flow st) :
    IR.Machine.Reaches m S.conv outside (.running (.enter fn args) callers w)
      (IR.Machine.leave flow.value st.world callers) := by
  have hB := Body.tracks h hret
  obtain ⟨new, k, hnew, hBk, hparams⟩ := params_of_gives_storeParams h.params hB h.func rfl htypes
  obtain ⟨new', g', hnew', hBg, -, hrun⟩ :=
    follows_statements (fun _ _ => simulated_of fun t _ => simulatedTree S.conv.deadDeclares t)
      h.statements hBk
  obtain rfl := Option.mem_unique h.finish hBg.frame
  let C := Body.context h hBg outside S hcalls
  obtain ⟨k', hwithin, hwithin'⟩ := State.within_body h.start h.func h.params h.statements h.finish
  obtain rfl := Option.mem_unique hBk.frame hwithin.frame
  have hcode : Grow (g.endWith (.ret none)).blocks C.func.blocks := by
    rw [← h.blocks]
    exact .refl _
  have hCg : C.Covers t₂ g (new' ++ (new ++ [])) :=
    ⟨(hwithin.trans hwithin').module.symm, (Frame.extends_endWith g _).grow.trans hcode,
      Bindings.agrees_layout_append _ []⟩
  have hstart : C.Ready f (argStore w args 0) (.enter fn args) := by
    obtain ⟨label, hblocks, -⟩ := h.first
    exact ⟨rfl, ⟨0, ⟨label, [], none⟩, ⟨h.cursor, by simp [hblocks], rfl⟩, rfl, rfl⟩,
      ⟨by simp [argStore], by simp [argStore]⟩⟩
  obtain ⟨a₁, hreach₁, hready₁⟩ :=
    hparams C (hCg.before hwithin').older callers args w _ (by simp [hlength]) rfl hstart
  rw [argStore_length] at hready₁
  rw [← show Bindings.scope (new ++ []) = Scope.add [] (ps.map (·.name)) from scope_append
    hnew []] at hexec
  have hends := hrun C rfl hCg callers _ flow st a₁ hexec hready₁
  refine hreach₁.trans ?_
  cases flow with
  | returned v => exact hends
  | next =>
    -- the end of the body returns nothing
    obtain ⟨a₂, hreach₂, hready₂⟩ := hends
    obtain ⟨i, b, hb, -⟩ := hready₂.position
    rw [Frame.endWith_of_filling hb] at hcode
    exact hreach₂.trans (.step (hready₂.step_finish hb hcode) .refl)

end CSubset.Simulation
