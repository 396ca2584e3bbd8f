import CSubset.Proofs.Lowering.Members
import CSubset.Proofs.Typing.Bodies

/-!
# Types of whole modules

However many programs are lowered into a module, and whatever is rejected on the way, each function
of the module is well typed (`reached_well_typed`). No function uses a variable of another one,
although there is one table of names for all of them: what the table says of a function's variables
are slots of that function's own code.
-/

namespace CSubset.Lowering

open IR (Ty Value Op Term Block Func Param Module Widens instrAt?)

variable {s s' : State} {sourceName : String} {m : Module} {fn : Func}

/-! ## Bodies -/

theorem mem_globals {x : String} (hglobals : ∀ x ∈ m.globals, x.ty = .i32)
    (hx : m.hasGlobal x = true) : ⟨x, .i32⟩ ∈ m.globals := by
  unfold Module.hasGlobal at hx
  obtain ⟨⟨y, ty⟩, hy, hyx⟩ := List.any_eq_true.mp hx
  obtain rfl : y = x := by simpa using hyx
  obtain rfl : ty = .i32 := hglobals _ hy
  exact hy

/-- The code of a body is well typed in a module whose global variables are numbers, and the
function's variables are slots of this code. -/
theorem Body.wellTyped {name : String} {ps : List Param} {items : List (Option Node)}
    {t t₁ t₂ : State} {f g : Frame} (h : Body name ps items m fn t t₁ t₂ f g)
    (hname : fn.name = name) (hps : ∀ p ∈ ps, p.ty = .i32)
    (hglobals : ∀ x ∈ m.globals, x.ty = .i32) :
    fn.WellTyped m ∧ ∀ x slot, (x, .var slot (some name)) ∈ t₂.symbols → slot.IsSlot m fn .i32 := by
  obtain ⟨label, hblocks, -⟩ := h.first
  have hempty := h.instrAt?_start
  have hopen : ∀ (i : Nat) (b : Block), f.blocks[i]? = some b → b.term = none := by
    intro i b hb
    rw [hblocks, List.getElem?_singleton] at hb
    split at hb
    · exact (Option.some.inj hb) ▸ rfl
    · cases hb
  -- the body begins with an empty block, so there is nothing to type but the slots outside
  have hstart : t.Typed m fn.params f f :=
    { frame := h.start
      widens := .refl _ _
      numbered := ⟨by simp [hempty], by simp [hempty]⟩
      code := ⟨by simp [Frame.code, hempty], by simp [Frame.code, hempty], fun i b t hb ht => by
        simp [hopen i b hb] at ht⟩
      slots := by
        intro x slot owner hx howner
        rcases h.owned x slot owner hx with ⟨rfl, rfl⟩ | ⟨func, hfunc, rfl⟩
        · exact .global (mem_globals hglobals (h.globals x _ hx))
        · rw [h.func] at howner
          exact absurd (howner.resolve_left nofun) (by simpa using hfunc)
      callees :=
        fun callee c hc =>
        ⟨(h.types callee c hc).1, (h.types callee c hc).2, h.callees callee c hc⟩ }
  obtain ⟨k, hk⟩ := typed_storeParams hstart hps (by rw [List.drop_zero, h.paramTypes]) h.params
  obtain ⟨g', hg'⟩ := typed_statements (fun n _ t _ => typed_visit t t rfl) h.statements hk
  obtain rfl := Option.mem_unique h.finish hg'.frame
  have hend := ((hstart.trans hk).trans hg').endWith (t := .ret none) fun hopen =>
    ⟨h.isOpen hopen, by simp [Term.operands]⟩
  have hfunc : (g.endWith (.ret none)).func = name := hend.widens.name.trans h.func
  have hret : (g.endWith (.ret none)).ret = fn.ret := hend.widens.ret.trans h.ret
  have hcode : (g.endWith (.ret none)).code fn.params = fn := by
    unfold Frame.code
    rw [hfunc, hret, ← h.blocks, ← hname]
  rw [← hcode]
  exact ⟨hend.code, fun x slot hx => hend.slots x slot _ hx (.inr (by rw [hfunc]))⟩

/-! ## Members of a program -/

/-- What holds between two members of a program. -/
structure State.WellTyped (s : State) : Prop where
  globals : ∀ x ∈ s.module.globals, x.ty = .i32
  funcs : ∀ name fn, s.module.func? name = some fn → fn.WellTyped s.module
  slots : ∀ x slot func fn, (x, .var slot (some func)) ∈ s.symbols → s.module.func? func = some fn →
    fn.blocks = [] ∨ slot.IsSlot s.module fn .i32

/-- A function without code. -/
theorem wellTyped_of_empty (h : fn.blocks = []) : fn.WellTyped m := by
  refine ⟨?_, ?_, ?_⟩ <;> simp [h, instrAt?]

theorem State.Member.wellTyped {n : Node} (hs : s.Steady) (htyped : s.WellTyped)
    (h : s.Member n s') : s'.WellTyped := by
  obtain ⟨-, hlater⟩ := h.steady hs
  have hglobals : ∀ x ∈ s.module.globals, x ∈ s'.module.globals := by
    rcases h.globals with hsame | ⟨y, hnew⟩
    · simp [hsame]
    · simp +contextual [hnew]
  have hnumbers : ∀ x ∈ s'.module.globals, x.ty = .i32 := by
    rcases h.globals with hsame | ⟨y, hnew⟩
    · rw [hsame]
      exact htyped.globals
    · rw [hnew]
      intro x hx
      rcases List.mem_append.mp hx with hx | hx
      · exact htyped.globals x hx
      · exact List.mem_singleton.mp hx ▸ rfl
  -- a function that was there keeps its code, and can use what it could use before
  have hwidens : ∀ {name fn₀ fn}, s.module.func? name = some fn₀ → s'.module.func? name = some fn →
      SameCode fn₀ fn → Widens s.module fn₀ s'.module fn := by
    intro name fn₀ fn hfn₀ hfn hsame
    refine ⟨hglobals, ?_, ?_, hsame.ret, hsame.params, hsame.blocks ▸ .refl _⟩
    · intro other c hc
      obtain ⟨c', hc', hret, hparams, -⟩ := hlater.funcs other c hc
      exact ⟨c', hc', hret, hparams⟩
    · rw [Module.func?_name hfn, Module.func?_name hfn₀]
  refine ⟨hnumbers, ?_, ?_⟩
  · intro name fn hfn
    rcases h.func? hs hfn with ⟨fn₀, hfn₀, hsame⟩ | hempty | ⟨ps, items, t, t₁, t₂,
      f, g, hps, hbody⟩
    · exact (htyped.funcs name fn₀ hfn₀).move (hwidens hfn₀ hfn hsame) hsame.blocks
    · exact wellTyped_of_empty hempty
    · exact (hbody.wellTyped (Module.func?_name hfn) hps hnumbers).1
  · intro x slot func fn hx hfn
    rcases h.symbols hs hx with hold | ⟨fn', hfn', hempty⟩ | ⟨ps, items, fn', t, t₁, t₂, f, g, hps,
      hfn', hbody, hx'⟩
    · -- the function was begun before, so it has not changed
      obtain ⟨func', hdefined, howner⟩ :=
        (hs.owned x slot _ hold).resolve_left fun hnone => nomatch hnone.1
      obtain rfl := Option.some.inj howner
      obtain ⟨fn₀, hfn₀⟩ := Option.ne_none_iff_exists'.mp (hs.declared func hdefined)
      obtain ⟨fn', hfn', -, -, hkept⟩ := hlater.funcs func fn₀ hfn₀
      obtain rfl : fn = fn₀ := (Option.mem_unique hfn hfn').trans (hkept hdefined)
      exact (htyped.slots x slot func fn hold hfn₀).imp_right fun hslot => hslot.widen
        (hwidens hfn₀ hfn (.refl fn))
    · obtain rfl := Option.mem_unique hfn hfn'
      exact .inl hempty
    · obtain rfl := Option.mem_unique hfn hfn'
      exact .inr ((hbody.wellTyped (Module.func?_name hfn) hps hnumbers).2 x slot hx')

theorem State.Reached.wellTyped (hs : s.Reached sourceName) : s.WellTyped := by
  have hstart : (State.start sourceName).WellTyped := by
    refine ⟨?_, ?_, ?_⟩ <;> simp [State.start, Module.func?]
  exact (hs.ind hstart (fun _ h => ⟨h.globals, h.funcs, h.slots⟩)
    fun _ _ _ hsteady htyped hmember => hmember.wellTyped hsteady htyped).2

/-- In a state between two members every function is well typed in the module. The variables that
the table of names holds are global variables of the module, or belong to a function whose
definition has been begun; if that has code, they are slots of this code. Lowering a further program
ends in such a state again, whatever is rejected; otherwise a node is missing. -/
theorem reached_well_typed (hs : s.Reached sourceName) :
    (∀ fn ∈ s.module.funcs, fn.WellTyped s.module) ∧
    (∀ x slot owner, (x, .var slot owner) ∈ s.symbols →
      (owner = none ∧ slot = .global x .i32 ∧ ⟨x, .i32⟩ ∈ s.module.globals) ∨
      ∃ func ∈ s.defined, owner = some func ∧
        ∀ fn ∈ s.module.funcs, fn.name = func → fn.blocks = [] ∨ slot.IsSlot s.module fn .i32) ∧
    (∀ stamp items,
      (∃ out, s.lower (some (.seq stamp .program items)) = .ok out ∧ out.state.Reached sourceName) ∨
      s.lower (some (.seq stamp .program items)) = .error .missingNode) := by
  have htyped := hs.wellTyped
  refine ⟨fun fn hfn => htyped.funcs fn.name fn (hs.found fn hfn), ?_, hs.lower⟩
  intro x slot owner hx
  rcases hs.steady.owned x slot owner hx with ⟨hnone, hslot, hglobal⟩ | ⟨func, hdefined, rfl⟩
  · exact .inl ⟨hnone, hslot, mem_globals htyped.globals hglobal⟩
  · refine .inr ⟨func, hdefined, rfl, ?_⟩
    rintro fn hfn rfl
    exact htyped.slots x slot fn.name fn hx (hs.found fn hfn)

/-- A global variable, a function that shifts, branches and calls itself, and one that names a
variable of the first. -/
def shifting : List (Option Node) :=
  let k : Stamp := ⟨⟨0, 0⟩, .unknown⟩
  let int : Option Node := some (.leaf k (.type (.known .int) false))
  let name (x : String) : Option Node := some (.leaf k (.names [x] 0))
  let params : Option Node :=
    some (.seq k .parameters [some (.binary k .declaration int (name "a"))])
  let shift : Option Node :=
    some (.binary k (.bitwise (.known .shl)) (name "a") (some (.leaf k (.intConst 3))))
  let both : Option Node := some (.binary k (.boolean (.known .and)) (name "a") (name "x"))
  let call : Option Node := some (.unary k (.call "f") (some (.seq k .parameters [name "x", both])))
  let define (f : String) (params : Option Node) (body : List (Option Node)) : Option Node :=
    some (.ternary k .definition int (some (.unary k (.signature f) params))
      (some (.seq k .block body)))
  [some (.binary k .declaration int (name "x")), define "f" params
    [some (.binary k .assign (name "x") shift), some (.binary k .while both call),
    some (.unary k .ret (name "a"))], define "g" none [some (.unary k .ret (name "a"))]]

theorem shifting_well_typed : ∃ (s : State) (fn : Func), s.Reached "a.c" ∧ s.rejections.length = 1 ∧
    fn ∈ s.module.funcs ∧ fn.name = "f" ∧ fn.blocks.length = 4 ∧ fn.WellTyped s.module := by
  have hcheck : (match (visitTopLevel shifting (State.start "a.c") : Except Stop Unit × State) with
      | (.error _, _) => false
      | (.ok _, s) => s.rejections.length = 1 && s.module.funcs.any fun fn =>
          fn.name = "f" && fn.blocks.length = 4) = true := by decide +kernel
  rcases hrun : (visitTopLevel shifting (State.start "a.c") : Except Stop Unit × State)
    with ⟨e | u, s⟩
  · simp [hrun] at hcheck
  · simp only [hrun, Bool.and_eq_true, List.any_eq_true, decide_eq_true_eq] at hcheck
    obtain ⟨hrejected, fn, hfn, hname, hlength⟩ := hcheck
    have hreached : s.Reached "a.c" := .call (s := State.start "a.c") .start hrun
    exact ⟨s, fn, hreached, hrejected, hfn, hname, hlength, (reached_well_typed hreached).1 fn hfn⟩

end CSubset.Lowering
