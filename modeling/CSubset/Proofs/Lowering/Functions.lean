import CSubset.Proofs.Lowering.Growth

/-!
# How functions are declared and defined

One lemma for each step of declaring a function and of lowering its definition, in the style of the
forms of statements: the step succeeds exactly if the stated conditions hold, and then leaves the
stated state.
-/

namespace CSubset

namespace IR.Module

variable {m : Module} {f : Func}

theorem func?_name {name : String} (h : m.func? name = some f) : f.name = name := by
  have := List.find?_some h
  simpa using this

theorem func?_addFunc (m : Module) (f : Func) (name : String) :
    (m.addFunc f).func? name = (m.func? name).or (if f.name = name then some f else none) := by
  simp [func?, addFunc, List.find?_append, List.find?_singleton]

/-- A change of one function that keeps its name. -/
theorem func?_modifyFunc (m : Module) (name : String) (change : Func → Func)
    (hchange : ∀ f, (change f).name = f.name) (other : String) :
    (m.modifyFunc name change).func? other = if other = name then
      (m.func? other).map change else m.func? other := by
  have hname : ∀ f : Func, (if f.name = name then change f else f).name = f.name := by
    intro f
    split <;> simp [hchange]
  have hmap : (m.modifyFunc name change).func? other =
      (m.func? other).map fun f => if f.name = name then change f else f := by
    simp only [func?, modifyFunc, List.find?_map]
    congr 2
    funext f
    simp [hname]
  rw [hmap]
  cases hm : m.func? other with
  | none => simp
  | some f =>
    have := func?_name hm
    by_cases h : other = name <;> simp_all

theorem func?_setParams (m : Module) (name : String) (params : List Param) (other : String) :
    (m.modifyFunc name fun fn => { fn with params := params }).func? other =
      if other = name then (m.func? other).map fun fn => { fn with params := params }
        else m.func? other :=
  m.func?_modifyFunc name (fun fn => { fn with params := params }) (fun _ => rfl) other

theorem func?_setBlocks (m : Module) (name : String) (blocks : List Block) (other : String) :
    (m.modifyFunc name fun fn => { fn with blocks := blocks }).func? other =
      if other = name then (m.func? other).map fun fn => { fn with blocks := blocks }
        else m.func? other :=
  m.func?_modifyFunc name (fun fn => { fn with blocks := blocks }) (fun _ => rfl) other

/-- Declaring a variable adds it to the global variables, unless it is there. -/
theorem hasGlobal_declare (m : Module) (x y : String) :
    (if m.hasGlobal x then m else m.addGlobal ⟨x, .i32⟩).hasGlobal y = true ↔ y = x ∨
      m.hasGlobal y = true := by
  split
  next hx =>
    constructor
    · exact .inr
    · rintro (rfl | hy)
      · exact hx
      · exact hy
  next =>
    simp only [hasGlobal, addGlobal, List.any_append, List.any_cons, List.any_nil, Bool.or_false,
      Bool.or_eq_true, beq_iff_eq]
    rw [or_comm, eq_comm]

/-- Each function is what its name finds. -/
def Found (m : Module) : Prop := ∀ f ∈ m.funcs, m.func? f.name = some f

theorem Found.addFunc (hm : m.Found) (hf : m.func? f.name = none) : (m.addFunc f).Found := by
  intro g hg
  rw [func?_addFunc]
  rcases List.mem_append.mp hg with hg | hg
  · rw [hm g hg]
    rfl
  · obtain rfl := List.mem_singleton.mp hg
    simp [hf]

theorem Found.modifyFunc (hm : m.Found) (name : String) {change : Func → Func}
    (hchange : ∀ f, (change f).name = f.name) : (m.modifyFunc name change).Found := by
  intro g hg
  obtain ⟨f, hf, rfl⟩ := List.mem_map.mp hg
  rw [func?_modifyFunc m name change hchange]
  by_cases hname : f.name = name
  · have hfound : m.func? name = some f := hname ▸ hm f hf
    simp [hname, hchange, hfound]
  · simp [hname, hm f hf]

end IR.Module

namespace Lowering

open IR (Ty Value Op BinOp Term Instr Block Func Param Module)

variable {s s' : State} {f g : Frame} {u : Unit} {name func : String} {isDef : Bool}
  {defined : List String} {index : Nat} {m m' : Module} {ps : List Param}
  {n params ret : Option Node} {ns : List (Option Node)} {p : Param}

/-! ## Signatures -/

/-- The variable that a member of a parameter list introduces. -/
def Variable.ofParam? : Option Node → Option Variable
  | some (.binary _ .declaration (some (.leaf typeStamp (.type tag _)))
    (some (.leaf _ (.names [x] _)))) =>
    if lowerTag tag = .i32 then some ⟨x, tag, typeWarnings typeStamp tag⟩ else none
  | _ => none

/-- A parameter of this name. -/
def Variable.param (x : Variable) : Param := ⟨x.name, .i32⟩

theorem State.warned_warned (s : State) (ws ws' : List Warning) :
    (s.warned ws).warned ws' = s.warned (ws ++ ws') := by
  simp [State.warned]

@[simp] theorem State.warned_nil (s : State) : s.warned [] = s := by
  simp [State.warned]

theorem Variable.ofParam?_eq_some {x : Variable} (h : Variable.ofParam? n = some x) :
    ∃ stamp place isConst place' stars, n = some (.binary stamp .declaration
      (some (.leaf place (.type x.tag isConst))) (some (.leaf place' (.names [x.name] stars)))) ∧
      lowerTag x.tag = .i32 ∧ x.warnings = typeWarnings place x.tag := by
  unfold Variable.ofParam? at h
  split at h
  next stamp place tag isConst place' y stars =>
    split at h
    next htag =>
      obtain rfl := Option.some.inj h
      exact ⟨stamp, place, isConst, place', stars, rfl, htag, rfl⟩
    next => simp at h
  next => simp at h

theorem gives_lowerParams_cons :
    Gives (lowerParams func index (n :: ns)) s ps s' ↔
      ∃ x rest, Variable.ofParam? n = some x ∧
        Gives (lowerParams func (index + 1) ns) (s.warned x.warnings) rest s' ∧
          ps = x.param :: rest := by
  constructor
  · intro h
    unfold lowerParams at h
    split at h
    next => simp_all
    next => simp at h
    next stamp type names ns' heq =>
      obtain ⟨rfl, rfl⟩ : n = some (.binary stamp .declaration type names) ∧ ns = ns' := by
        simpa using heq
      split at h
      next place list stars =>
        cases hx : Tree.singleName? list with
        | none => simp [hx] at h
        | some x =>
          obtain rfl := singleName?_eq_some.mp hx
          simp only [hx, gives_bind, gives_lowerType] at h
          obtain ⟨_, _, ⟨place', tag, isConst, rfl, rfl, rfl⟩, h⟩ := h
          rcases lowerTag_eq tag with htag | htag
          · simp [htag, Ty.isVoid] at h
          · rw [if_neg (by simp [htag, Ty.isVoid])] at h
            simp only [gives_bind, gives_pure] at h
            obtain ⟨rest, _, hrest, rfl, rfl⟩ := h
            exact ⟨⟨x, tag, typeWarnings place' tag⟩,
              rest, by simp [Variable.ofParam?, htag], hrest, by simp [Variable.param, htag]⟩
      next => simp at h
    next => simp at h
  · rintro ⟨x, rest, hx, hrest, rfl⟩
    obtain ⟨stamp, place, isConst, place', stars, rfl, htag, hwarn⟩ := Variable.ofParam?_eq_some hx
    have htype : Gives (lowerType (some (.leaf place (.type x.tag isConst)))) s (lowerTag x.tag)
        (s.warned x.warnings) := gives_lowerType.mpr ⟨_, _, _, rfl, rfl, by rw [hwarn]⟩
    unfold lowerParams
    simp only [Tree.singleName?]
    rw [htype.bind_iff, if_neg (by simp [htag, Ty.isVoid]), hrest.bind_iff]
    simp [Variable.param, htag]

/-- All parameters can be lowered, one by one, with their warnings. -/
theorem gives_lowerParams :
    Gives (lowerParams func index ns) s ps s' ↔
      ∃ xs, ns.mapM Variable.ofParam? = some xs ∧ ps = xs.map Variable.param ∧
        s' = s.warned (xs.flatMap (·.warnings)) := by
  induction ns generalizing index s ps with
  | nil => simp [lowerParams]
  | cons n ns ih =>
    rw [gives_lowerParams_cons]
    simp only [ih, List.mapM_cons, Option.bind_eq_bind, Option.pure_def]
    constructor
    · rintro ⟨x, _, hx, ⟨xs, hxs, rfl, rfl⟩, rfl⟩
      exact ⟨x :: xs, by simp [hx, hxs], rfl, by simp [State.warned_warned]⟩
    · rintro ⟨xs, hxs, rfl, rfl⟩
      obtain ⟨x, hx, hxs⟩ := Option.bind_eq_some_iff.mp hxs
      obtain ⟨rest, hrest, h⟩ := Option.bind_eq_some_iff.mp hxs
      obtain rfl := Option.some.inj h
      exact ⟨x, _, hx, ⟨rest, hrest, rfl, by simp [State.warned_warned]⟩, rfl⟩

/-- What a function's declaration says: its type, the names of its parameters, and the warnings. -/
structure Signature where
  ret : Ty
  params : List Param
  warnings : List Warning

/-- The signature with this return type and this parameter list. -/
def Signature.ofNodes? (ret params : Option Node) : Option Signature :=
  match ret with
  | some (.leaf stamp (.type tag _)) =>
    ((paramNodes params).mapM Variable.ofParam?).map fun xs =>
      ⟨lowerTag tag, xs.map Variable.param, typeWarnings stamp tag ++ xs.flatMap (·.warnings)⟩
  | _ => none

/-- Parameters are numbers, and a result is a number or nothing. -/
theorem Signature.types {sig : Signature} (h : Signature.ofNodes? ret params = some sig) :
    (∀ p ∈ sig.params, p.ty = .i32) ∧ (sig.ret = .void ∨ sig.ret = .i32) := by
  unfold Signature.ofNodes? at h
  split at h
  next place tag isConst =>
    obtain ⟨xs, -, rfl⟩ := Option.map_eq_some_iff.mp h
    refine ⟨?_, lowerTag_eq tag⟩
    intro p hp
    obtain ⟨x, -, rfl⟩ := List.mem_map.mp hp
    rfl
  next => simp at h

/-- The parameters under the names that they have in a function that was declared before. -/
def shownParams (params : List Param) : List Param :=
  params.map fun p => { p with name := IR.Name.shown p.name }

/-- Where these functions have been defined, declaring the function `name` turns one module into
another. The first declaration creates the function; a later one has to agree with it, and a
definition, of which there is at most one, renames the parameters. -/
inductive DeclaresFunction (defined : List String) (name : String) (sig : Signature) (isDef : Bool)
    (m : Module) : Module → Prop where
  | first (h : m.func? name = none) :
    DeclaresFunction defined name sig isDef m (m.addFunc ⟨name, sig.ret, sig.params, []⟩)
  | again (fn : Func) (h : m.func? name = some fn) (hdef : isDef = true → name ∉ defined)
    (hsame : sameSignature fn sig.ret sig.params = true) :
    DeclaresFunction defined name sig isDef m
      (if isDef then m.modifyFunc name fun fn => { fn with params := shownParams sig.params }
        else m)

theorem declaresFunction_iff_of_none {sig : Signature} (h : m.func? name = none) :
    DeclaresFunction defined name sig isDef m m' ↔
      m' = m.addFunc ⟨name, sig.ret, sig.params, []⟩ := by
  constructor
  · rintro (_ | ⟨fn, h', _, _⟩)
    · rfl
    · simp [h] at h'
  · rintro rfl
    exact .first h

theorem declaresFunction_iff_of_some {sig : Signature} {fn : Func} (h : m.func? name = some fn) :
    DeclaresFunction defined name sig isDef m m' ↔ (isDef = true → name ∉ defined) ∧
      sameSignature fn sig.ret sig.params = true ∧
      m' = if isDef then m.modifyFunc name fun fn => { fn with params := shownParams sig.params }
        else m := by
  constructor
  · rintro (h' | ⟨fn', h', hdef, hsame⟩)
    · simp [h] at h'
    · obtain rfl : fn = fn' := by simpa [h] using h'
      exact ⟨hdef, hsame, rfl⟩
  · rintro ⟨hdef, hsame, rfl⟩
    exact .again fn h hdef hsame

namespace DeclaresFunction

variable {sig : Signature} (h : DeclaresFunction defined name sig isDef m m')

include h

/-- Declaring a function leaves the others alone; one that is there keeps its type and its body. -/
theorem func? :
    (∀ other, other ≠ name → m'.func? other = m.func? other) ∧
      ∃ fn, m'.func? name = some fn ∧ fn.ret = sig.ret ∧
        fn.params.map (·.ty) = sig.params.map (·.ty) ∧
        fn.blocks = ((m.func? name).map (·.blocks)).getD [] ∧
        ∀ fn₀, m.func? name = some fn₀ →
          fn.ret = fn₀.ret ∧ fn.params.map (·.ty) = fn₀.params.map (·.ty) := by
  cases h with
  | first h =>
    constructor
    · intro other hother
      simp [Module.func?_addFunc, hother.symm]
    · exact ⟨⟨name, sig.ret, sig.params, []⟩, by simp [Module.func?_addFunc, h], rfl, rfl,
        by simp [h], by simp [h]⟩
  | again fn h hdef hsame =>
    obtain ⟨hret, hparams⟩ : fn.ret = sig.ret ∧ fn.params.map (·.ty) = sig.params.map (·.ty) := by
      simpa [sameSignature] using hsame
    have hshown : (shownParams sig.params).map (·.ty) = sig.params.map (·.ty) := by
      simp [shownParams, Function.comp_def]
    cases isDef with
    | false => exact ⟨fun _ _ => rfl, fn, h, hret, hparams, by simp [h], by simp [h]⟩
    | true =>
      constructor
      · intro other hother
        simp [Module.func?_setParams, hother]
      · exact ⟨{ fn with params := shownParams sig.params }, by simp [Module.func?_setParams, h],
          hret, hshown, by simp [h], by simp [h, hshown, hparams]⟩

theorem globals : m'.globals = m.globals := by
  cases h with
  | first => rfl
  | again => cases isDef <;> rfl

theorem hasGlobal (x : String) : m'.hasGlobal x = m.hasGlobal x := by
  unfold Module.hasGlobal
  rw [h.globals]

theorem found (hm : m.Found) : m'.Found := by
  cases h with
  | first hnone => exact hm.addFunc hnone
  | again fn _ _ _ =>
    cases isDef with
    | true => exact hm.modifyFunc name fun _ => rfl
    | false => exact hm

end DeclaresFunction

/-- A name that is no variable, and a signature that agrees with the one declared before, if there
is one. -/
theorem gives_declareFunction {place : Place} :
    Gives (declareFunction ret place name params isDef) s ps s' ↔
      ∃ sig m, Signature.ofNodes? ret params = some sig ∧ ps = sig.params ∧
        s.module.hasGlobal name = false ∧
        DeclaresFunction s.defined name sig isDef s.module m ∧
        s' = { s.warned sig.warnings with module := m, symbols := (name, .func) :: s.symbols } := by
  cases hsig : Signature.ofNodes? ret params with
  | none =>
    refine iff_of_false ?_ (by simp)
    intro h
    unfold declareFunction at h
    simp only [gives_bind, gives_lowerType, gives_lowerParams] at h
    obtain ⟨_, _, ⟨stamp, tag, isConst, rfl, -⟩, _, _, ⟨xs, hxs, -⟩, -⟩ := h
    simp [Signature.ofNodes?, hxs] at hsig
  | some sig =>
    unfold Signature.ofNodes? at hsig
    split at hsig
    next stamp tag isConst =>
      obtain ⟨xs, hxs, rfl⟩ := Option.map_eq_some_iff.mp hsig
      have htype : Gives (lowerType (some (.leaf stamp (.type tag isConst)))) s (lowerTag tag)
          (s.warned (typeWarnings stamp tag)) := gives_lowerType.mpr ⟨_, _, _, rfl, rfl, rfl⟩
      have hparams : Gives (lowerParams name 0 (paramNodes params))
          (s.warned (typeWarnings stamp tag)) (xs.map Variable.param)
          (s.warned (typeWarnings stamp tag ++ xs.flatMap (·.warnings))) :=
        gives_lowerParams.mpr ⟨xs, hxs, rfl, by rw [State.warned_warned]⟩
      unfold declareFunction
      rw [htype.bind_iff, hparams.bind_iff, (gives_get.mpr ⟨rfl, rfl⟩).bind_iff]
      simp only [Option.some.injEq, exists_and_left, exists_eq_left']
      have hmodule : ∀ ws, (s.warned ws).module = s.module := fun _ => rfl
      have hdefined : ∀ ws, (s.warned ws).defined = s.defined := fun _ => rfl
      -- checked in this order: a variable of the name, an earlier body, another signature
      cases hglobal : s.module.hasGlobal name with
      | true => simp [hmodule, hglobal]
      | false =>
        rw [hmodule, hglobal, if_neg (by simp), (gives_get.mpr ⟨rfl, rfl⟩).bind_iff, hmodule]
        cases hfunc : s.module.func? name with
        | none =>
          simp only [declaresFunction_iff_of_none hfunc, gives_bind, gives_modify, gives_bindSymbol,
            gives_pure, hmodule]
          constructor
          · rintro ⟨_, _, rfl, _, _, rfl, rfl, rfl⟩
            exact ⟨rfl, trivial, _, rfl, rfl⟩
          · rintro ⟨rfl, -, _, rfl, rfl⟩
            exact ⟨(), _, rfl, (), _, rfl, rfl, rfl⟩
        | some fn =>
          simp only [declaresFunction_iff_of_some hfunc]
          rw [(gives_get.mpr ⟨rfl, rfl⟩).bind_iff, hdefined]
          by_cases hdef : isDef = true → name ∉ s.defined
          · rw [if_neg (by simpa using hdef)]
            cases hsame : sameSignature fn (lowerTag tag) (xs.map Variable.param) with
            | false => simp
            | true =>
              rw [if_neg (by simp)]
              cases isDef with
              | false =>
                simp only [Bool.false_eq_true, if_false, gives_bind, gives_bindSymbol, gives_pure]
                constructor
                · rintro ⟨_, _, rfl, rfl, rfl⟩
                  exact ⟨rfl, trivial, _, ⟨by simp, trivial, rfl⟩, rfl⟩
                · rintro ⟨rfl, -, _, ⟨-, -, rfl⟩, rfl⟩
                  exact ⟨(), _, rfl, rfl, rfl⟩
              | true =>
                simp only [if_true, gives_bind, gives_modify, gives_bindSymbol, gives_pure]
                constructor
                · rintro ⟨_, _, rfl, _, _, rfl, rfl, rfl⟩
                  exact ⟨rfl, trivial, _, ⟨fun _ => hdef rfl, trivial, rfl⟩, rfl⟩
                · rintro ⟨rfl, -, _, ⟨-, -, rfl⟩, rfl⟩
                  exact ⟨(), _, rfl, (), _, rfl, rfl, rfl⟩
          · rw [if_pos (by simpa using hdef)]
            simp only [gives_bind, gives_reject, false_and, exists_false, false_iff]
            rintro ⟨-, -, _, ⟨h, -⟩, -⟩
            exact hdef h
    next => simp at hsig

/-! ## The first block

The parameters get names of their own, and then a slot each. -/

/-- The parameters under local names that the frame gives out, and the frame after that. -/
def Frame.renameParams (f : Frame) : List Param → List Param × Frame
  | [] => ([], f)
  | p :: ps =>
    let rest := (f.useName (IR.Name.shown p.name)).renameParams ps
    ({ p with name := f.freshName (IR.Name.shown p.name) } :: rest.1, rest.2)

/-- The label of a function's first block, which has a number in it if a parameter has taken the
name. -/
def IsEntryLabel (label : String) : Prop :=
  ∃ used : Nat, label = if used = 0 then "entry" else s!"entry.{used}"

/-- The state in which the first block of the function `name` is being filled. -/
def State.opened (s : State) (name : String) (fn : Func) : State :=
  let renamed := Frame.renameParams ⟨name, fn.ret, [], none, [], 0⟩ fn.params
  { s with
    defined := name :: s.defined
    module := s.module.modifyFunc name fun fn => { fn with params := renamed.1 }
    frame := some ((renamed.2.addBlock "entry").moveTo (some 0)) }

theorem Frame.renameParams_frame (f : Frame) (ps : List Param) :
    ∃ names, (f.renameParams ps).2 = { f with names := names } := by
  induction ps generalizing f with
  | nil => exact ⟨f.names, rfl⟩
  | cons p ps ih => exact ih (f.useName (IR.Name.shown p.name))

theorem Frame.renameParams_blocks (f : Frame) (ps : List Param) :
    (f.renameParams ps).2.blocks = f.blocks := by
  obtain ⟨names, hnames⟩ := f.renameParams_frame ps
  rw [hnames]

theorem State.opened_frame (t : State) (name : String) (fn : Func) :
    ∃ names label, IsEntryLabel label ∧
      (t.opened name fn).frame = some ⟨name, fn.ret, [⟨label, [], none⟩], some 0, names, 0⟩ := by
  obtain ⟨names, hnames⟩ := Frame.renameParams_frame ⟨name, fn.ret, [], none, [], 0⟩ fn.params
  simp only [State.opened, hnames]
  exact ⟨_, _, ⟨_, rfl⟩, rfl⟩

theorem Frame.renameParams_ty (f : Frame) (ps : List Param) :
    (f.renameParams ps).1.map (·.ty) = ps.map (·.ty) := by
  induction ps generalizing f with
  | nil => rfl
  | cons p ps ih => simp [Frame.renameParams, ih]

theorem gives_renameParams {renamed : List Param} (hf : s.frame = some f) :
    Gives (ps.mapM fun p => return { p with name := ← freshName (IR.Name.shown p.name) }) s renamed
      s' ↔
      renamed = (f.renameParams ps).1 ∧ s' = s.withFrame (f.renameParams ps).2 := by
  induction ps generalizing s f renamed with
  | nil => simp [Frame.renameParams, State.withFrame_self hf]
  | cons p ps ih =>
    have hfresh : Gives (do
        let name ← freshName (IR.Name.shown p.name)
        return { p with name := name }) s
        ({ p with name := f.freshName (IR.Name.shown p.name) } : Param)
        (s.withFrame (f.useName (IR.Name.shown p.name))) := by
      simp [hf]
    rw [List.mapM_cons, hfresh.bind_iff]
    simp only [gives_bind, gives_pure]
    constructor
    · rintro ⟨_, _, hrest, rfl, rfl⟩
      obtain ⟨rfl, rfl⟩ := (ih (State.withFrame_frame s _)).mp hrest
      exact ⟨rfl, rfl⟩
    · rintro ⟨rfl, rfl⟩
      exact ⟨_, _, (ih (State.withFrame_frame s _)).mpr ⟨rfl, rfl⟩, rfl, rfl⟩

/-- The function is declared by now, and its parameters are stored in the first block. -/
theorem gives_openBody {params : List Param} :
    Gives (openBody name params) s u s' ↔
      ∃ fn, s.module.func? name = some fn ∧
        Gives (storeParams name 0 params) (s.opened name fn) u s' := by
  unfold openBody
  rw [(gives_get.mpr ⟨rfl, rfl⟩).bind_iff]
  cases hfn : s.module.func? name with
  | none => simp
  | some fn =>
    simp only [Option.some.injEq, exists_eq_left']
    rw [(gives_modify (u := ()).mpr rfl).bind_iff,
      ((gives_renameParams rfl).mpr ⟨rfl, rfl⟩).bind_iff, (gives_modify (u := ()).mpr rfl).bind_iff]
    rw [(gives_newBlock.mpr ⟨_, rfl, rfl, rfl⟩).bind_iff,
      (gives_moveTo (u := ()).mpr ⟨_, rfl, rfl⟩).bind_iff]
    rw [Frame.renameParams_blocks]
    exact Iff.rfl

/-- The state after a parameter is stored, where block `i` of frame `f` was `b`. -/
def State.storeParam (s : State) (func : String) (index : Nat) (p : Param) (f : Frame) (i : Nat)
    (b : Block) : State :=
  let slot := Value.result f.count (.ptr p.ty)
  let f' :=
    (f.useName (p.name ++ ".addr")).push i b (.alloca (f.freshName (p.name ++ ".addr")) p.ty 4)
  let b' :=
    { b with instrs := b.instrs ++ [⟨f.count, .alloca (f.freshName (p.name ++ ".addr")) p.ty 4⟩] }
  { s with
    symbols := (p.name, .var slot (some func)) :: s.symbols
    frame := some (f'.push i b' (.store (.param index p.ty) slot)) }

theorem gives_storeParams_nil : Gives (storeParams func index []) s u s' ↔ s' = s := by
  simp [storeParams]

theorem gives_storeParams_cons :
    Gives (storeParams func index (p :: ps)) s u s' ↔
      ∃ f i b, s.frame = some f ∧ f.Filling i b ∧
        Gives (storeParams func (index + 1) ps) (s.storeParam func index p f i b) u s' := by
  rw [storeParams]
  simp only [gives_bind, gives_newSlot, gives_emit, gives_bindSymbol]
  constructor
  · rintro ⟨_, _, ⟨f, i, b, hf, hb, rfl, rfl⟩, _, _, ⟨g, j, c, hg, hc, rfl, rfl⟩, _, _, rfl, hrest⟩
    obtain rfl := Option.some.inj hg
    have hb' := hb.useName (p.name ++ ".addr")
    obtain ⟨rfl, rfl⟩ := (hb'.push _).unique hc
    exact ⟨f, i, b, hf, hb, hrest⟩
  · rintro ⟨f, i, b, hf, hb, hrest⟩
    have hb' := hb.useName (p.name ++ ".addr")
    exact ⟨_, _, ⟨f, i, b, hf, hb, rfl, rfl⟩, _, _, ⟨_, i, _, rfl, hb'.push _, rfl, rfl⟩,
      (), _, rfl, hrest⟩

theorem State.within_storeParam {i : Nat} {b : Block}
    (hfunc : f.func = func) (hb : f.Filling i b) :
    ∃ g, s.Within (s.storeParam func index p f i b) f g := by
  have hb' := hb.useName (p.name ++ ".addr")
  refine ⟨_, rfl, ((Frame.extends_useName f _).trans (Frame.extends_push hb' _)).trans
    (Frame.extends_push (hb'.push _) _), rfl, rfl, rfl, rfl, [_], rfl, ?_⟩
  intro q hq
  obtain rfl := List.mem_singleton.mp hq
  exact ⟨_, by rw [hfunc]⟩

theorem within_of_gives_storeParams
    (h : Gives (storeParams func index ps) s u s') (hf : s.frame = some f) (hfunc : f.func = func) :
    ∃ g, s.Within s' f g := by
  induction ps generalizing s f index with
  | nil =>
    obtain rfl := gives_storeParams_nil.mp h
    exact ⟨f, .refl hf⟩
  | cons p ps ih =>
    obtain ⟨f', i, b, hf', hb, hrest⟩ := gives_storeParams_cons.mp h
    obtain rfl := Option.mem_unique hf hf'
    obtain ⟨g, hg⟩ := State.within_storeParam hfunc hb
    obtain ⟨k, hk⟩ := ih hrest hg.frame (hg.grows.func.trans hfunc)
    exact ⟨k, hg.trans hk⟩

/-! ## The end of a body -/

/-- The last step of `closeBody`: check the control flow and give the blocks to the function. -/
def deliver (n : Node) : LowerM Unit := do
  let frame ← getFrame
  match IR.Flow.defect? frame.blocks with
  | some defect => rejectAt n (.flow defect)
  | none =>
    modify fun s =>
      { s with module := s.module.modifyFunc frame.func fun f => { f with blocks := frame.blocks } }

theorem gives_deliver {n : Node} (hf : s.frame = some f) :
    Gives (deliver n) s u s' ↔
      IR.Flow.defect? f.blocks = none ∧
        s' = { s with module := s.module.modifyFunc f.func fun fn =>
          { fn with blocks := f.blocks } } := by
  rw [deliver, (gives_getFrame.mpr ⟨hf, rfl⟩).bind_iff]
  cases IR.Flow.defect? f.blocks <;> simp

/-- At the end of a body control has to be over, unless nothing is returned. -/
theorem gives_closeBody {n : Node} :
    Gives (closeBody n) s u s' ↔
      ∃ f, s.frame = some f ∧ (f.isOpen = true → f.ret = .void) ∧
        IR.Flow.defect? (f.endWith (.ret none)).blocks = none ∧
        s' = { s.withFrame (f.endWith (.ret none)) with
          module := s.module.modifyFunc f.func fun fn =>
            { fn with blocks := (f.endWith (.ret none)).blocks } } := by
  unfold closeBody
  cases hf : s.frame with
  | none => simp [hf]
  | some f =>
    simp only [Option.some.injEq, exists_eq_left']
    rw [(gives_getFrame.mpr ⟨hf, rfl⟩).bind_iff]
    by_cases ho : f.isOpen = true
    · rw [if_pos ho]
      obtain ⟨i, b, hb⟩ := Frame.isOpen_iff.mp ho
      rw [Frame.endWith_of_filling hb]
      by_cases hret : f.ret = .void
      · rw [if_pos (by simp [Ty.isVoid, hret]),
          (gives_close (u := ()).mpr ⟨f, i, b, hf, hb, rfl⟩).bind_iff]
        refine (gives_deliver (State.withFrame_frame s _)).trans ?_
        simp only [hret, implies_true, true_and]
        rfl
      · rw [if_neg (by simp [Ty.isVoid, hret])]
        simp [ho, hret]
    · rw [if_neg ho, Frame.endWith_of_not_isOpen ho, State.withFrame_self hf]
      refine (gives_deliver hf).trans ?_
      simp [ho]

end Lowering

end CSubset
