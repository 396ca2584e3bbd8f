import CSubset.Lowering
import CSubset.Proofs.Lowering.Functions

/-!
# Lowering a whole program

When nothing is rejected, the members of a program are lowered one after the other
(`gives_visitTopLevel_cons`). Between two of them the state is sound (`State.Sound`): functions take
and return numbers, those whose definition has been seen have a body and no others, and every
variable is global or belongs to a function that is defined. All but the bodies holds whether or not
something was rejected (`State.Steady`). What comes later keeps the global variables and functions
that are there, and the bodies of those that are defined (`State.Later`).

Main statement: `lowered_of_gives_visitTopLevel`, every member of a program is lowered from a sound
state, and the module at the end has its body.
-/

namespace CSubset.Lowering

open IR (Ty Value Op BinOp Term Instr Block Func Param Module)

variable {s s' : State} {f g : Frame} {u : Unit} {v : Option Value} {n : Node}
  {name sourceName : String} {items ns : List (Option Node)} {ps : List Param} {t t₁ t₂ : State}
  {fn : Func} {m : Module} {ret params : Option Node} {step : LowerM Unit}
  {out : Outcome (Option Failure)} {stamp : Stamp}

/-! ## Definitions -/

/-- The statements of a function's body. -/
def bodyItems : Node → List (Option Node)
  | .seq _ .block items => items
  | _ => []

theorem visitBody_some (t : Node) : visitBody (some t) = visitStatements (bodyItems t) := by
  rw [visitBody.eq_def]
  split
  next place items h =>
    obtain rfl := Option.some.inj h
    rfl
  next h =>
    unfold bodyItems
    split
    next => exact absurd rfl (h _ _)
    next => rw [visitStatements]

/-- The state after a function is declared, which leaves module `m`. -/
def State.declareFunction (s : State) (name : String) (sig : Signature) (m : Module) : State :=
  { s.warned sig.warnings with module := m, symbols := (name, .func) :: s.symbols }

/-- Outside functions, lowering the definition of `name` with these parts leaves `s'`. -/
def State.Defines (s : State) (ret : Option Node) (name : String) (params : Option Node)
    (body : List (Option Node)) (s' : State) : Prop :=
  ∃ sig m fn s₁ s₂ g, Signature.ofNodes? ret params = some sig ∧ s.module.hasGlobal name = false ∧
    DeclaresFunction s.defined name sig true s.module m ∧ m.func? name = some fn ∧
    Gives (storeParams name 0 sig.params)
      (({ s with scope := name }.declareFunction name sig m).opened name fn) () s₁ ∧
    Gives (visitStatements body) s₁ () s₂ ∧ s₂.frame = some g ∧ (g.isOpen = true → g.ret = .void) ∧
    IR.Flow.defect? (g.endWith (.ret none)).blocks = none ∧
    s' = { s₂ with
      module :=
        s₂.module.modifyFunc g.func fun fn => { fn with blocks := (g.endWith (.ret none)).blocks }
      scope := ""
      frame := none }

/-- A definition is accepted outside functions, with a signature and a body. -/
theorem gives_visit_definition_iff {signature body : Option Node} :
    Gives (visit (.ternary stamp .definition ret signature body)) s v s' ↔
      ∃ place name params t, s.frame = none ∧
        signature = some (.unary place (.signature name) params) ∧
        body = some t ∧ s.Defines ret name params (bodyItems t) s' ∧ v = none := by
  rw [gives_visit_definition]
  constructor
  · rintro ⟨place, name, params, t, ps, s₁, s₂, s₃, s₄, hframe, hsig, hbody, hdecl, hopen, hitems,
      hclose, rfl, rfl⟩
    obtain ⟨sig, m, hofNodes, rfl, hglobal, hdeclares, rfl⟩ := gives_declareFunction.mp hdecl
    obtain ⟨fn, hfn, hstore⟩ := gives_openBody.mp hopen
    obtain ⟨g, hg, hret, hdefect, rfl⟩ := gives_closeBody.mp hclose
    exact ⟨place, name, params, t, hframe, hsig, hbody,
      ⟨sig, m, fn, s₂, s₃, g, hofNodes, hglobal, hdeclares, hfn, hstore, visitBody_some t ▸ hitems,
      hg, hret, hdefect, rfl⟩, rfl⟩
  · rintro ⟨place, name, params, t, hframe, hsig, hbody,
      ⟨sig, m, fn, s₁, s₂, g, hofNodes, hglobal, hdeclares, hfn, hstore, hitems, hg, hret,
      hdefect, rfl⟩, rfl⟩
    exact ⟨place, name, params, t, sig.params, _, s₁, s₂, _, hframe, hsig, hbody,
      gives_declareFunction.mpr ⟨sig, m, hofNodes, rfl, hglobal, hdeclares, rfl⟩,
      gives_openBody.mpr ⟨fn, hfn, hstore⟩, (visitBody_some t).symm ▸ hitems,
      gives_closeBody.mpr ⟨g, hg, hret, hdefect, rfl⟩, rfl, rfl⟩

/-- The lowering of a function's body. In state `t` its first block is empty, in `t₁` the parameters
are stored, in `t₂` the statements are lowered; `f` and `g` are the frames at both ends, `fn` is the
function with the body, and `m` is a module in which the functions have the same types as in the
lowering. -/
structure Body (name : String) (ps : List Param) (items : List (Option Node)) (m : Module)
    (fn : Func) (t t₁ t₂ : State) (f g : Frame) : Prop where
  start : t.frame = some f
  func : f.func = name
  ret : f.ret = fn.ret
  cursor : f.cursor = some 0
  count : f.count = 0
  first : ∃ label, f.blocks = [⟨label, [], none⟩] ∧ IsEntryLabel label
  params : Gives (storeParams name 0 ps) t () t₁
  statements : Gives (visitStatements items) t₁ () t₂
  finish : t₂.frame = some g
  isOpen : g.isOpen = true → g.ret = .void
  flow : IR.Flow.defect? (g.endWith (.ret none)).blocks = none
  blocks : fn.blocks = (g.endWith (.ret none)).blocks
  paramTypes : fn.params.map (·.ty) = ps.map (·.ty)
  owned : ∀ x slot owner, (x, .var slot owner) ∈ t.symbols →
    (owner = none ∧ slot = .global x .i32) ∨ ∃ func, func ≠ name ∧ owner = some func
  globals : ∀ x slot, (x, .var slot none) ∈ t.symbols → m.hasGlobal x = true
  types : ∀ callee fn', t.module.func? callee = some fn' →
    (∀ p ∈ fn'.params, p.ty = .i32) ∧ (fn'.ret = .void ∨ fn'.ret = .i32)
  callees : ∀ callee fn', t.module.func? callee = some fn' → ∃ fn'', m.func? callee = some fn'' ∧
    fn''.ret = fn'.ret ∧ fn''.params.map (·.ty) = fn'.params.map (·.ty)

theorem State.within_body (hf : t.frame = some f) (hfunc : f.func = name)
    (hparams : Gives (storeParams name 0 ps) t () t₁)
    (hitems : Gives (visitStatements items) t₁ () t₂) (hg : t₂.frame = some g) :
    ∃ k, t.Within t₁ f k ∧ t₁.Within t₂ k g := by
  obtain ⟨k, hk⟩ := within_of_gives_storeParams hparams hf hfunc
  obtain ⟨g', hg'⟩ :=
    within_of_gives_visitStatements (fun _ _ t _ => within_of_gives_visit t t rfl) hitems hk.frame
  obtain rfl := Option.mem_unique hg hg'.frame
  exact ⟨k, hk, hg'⟩

/-- A body begins without instructions. -/
theorem Body.instrAt?_start (h : Body name ps items m fn t t₁ t₂ f g) (i k : Nat) :
    IR.instrAt? f.blocks i k = none := by
  obtain ⟨label, hblocks, -⟩ := h.first
  rw [hblocks]
  cases i <;> simp [IR.instrAt?]

/-! ## Members of a program -/

/-- The nodes that may stand at the top level. -/
theorem eq_of_member (h : n.kind = .definition ∨ n.kind = .forward ∨ n.kind = .declaration) :
    (∃ stamp left right, n = .binary stamp .declaration left right) ∨
    (∃ stamp left right, n = .binary stamp .forward left right) ∨
      ∃ stamp first second third, n = .ternary stamp .definition first second third := by
  cases n with
  | leaf stamp form => cases form <;> simp [Tree.kind, Leaf.kind] at h
  | seq stamp form items => cases form <;> simp [Tree.kind, SeqForm.kind] at h
  | unary stamp form child => cases form <;> simp [Tree.kind, UnaryForm.kind] at h
  | binary stamp form left right => cases form <;> simp [Tree.kind, BinaryForm.kind] at h ⊢
  | ternary stamp form first second third =>
    cases form <;> simp [Tree.kind, TernaryForm.kind] at h ⊢

/-- Outside functions, lowering a member of a program leaves `s'`. -/
inductive State.Item (s : State) : Node → State → Prop where
  | global {stamp : Stamp} {form : BinaryForm} {type names : Option Node} {x : Variable}
    (hform : form = .declaration ∨ form = .forward) (hx : Variable.ofNodes? type names = some x)
    (hfunc : s.module.hasFunc x.name = false) : s.Item (.binary stamp form type names)
      (s.declareGlobal x)
  | prototype {stamp place : Stamp} {ret params : Option Node} {name : String}
    {sig : Signature} {m : Module}
    (hsig : Signature.ofNodes? ret params = some sig) (hglobal : s.module.hasGlobal name = false)
    (hdecl : DeclaresFunction s.defined name sig false s.module m) :
    s.Item (.binary stamp .forward ret (some (.unary place (.signature name) params)))
      (s.declareFunction name sig m)
  | definition {stamp place : Stamp} {ret params : Option Node} {name : String}
    {t : Node} {s' : State}
    (hdef : s.Defines ret name params (bodyItems t) s') :
    s.Item (.ternary stamp .definition ret (some (.unary place (.signature name) params)) (some t))
      s'

theorem gives_visit_item (hframe : s.frame = none)
    (hkind : n.kind = .definition ∨ n.kind = .forward ∨ n.kind = .declaration) :
    Gives (visit n) s v s' ↔ s.Item n s' ∧ v = none := by
  constructor
  · intro hv
    rcases eq_of_member hkind with ⟨stamp, left, right, rfl⟩ | ⟨stamp, left, right, rfl⟩ |
      ⟨stamp, first, second, third, rfl⟩
    · obtain ⟨x, hx, hdecl, rfl⟩ := gives_visit_declaration.mp hv
      simp only [State.Declares, hframe] at hdecl
      obtain ⟨hfunc, rfl⟩ := hdecl
      exact ⟨.global (.inl rfl) hx hfunc, rfl⟩
    · rcases gives_visit_forward.mp hv with ⟨x, hx, hdecl, rfl⟩ | ⟨place, name, params, ps,
        rfl, -, hdecl, rfl⟩
      · simp only [State.Declares, hframe] at hdecl
        obtain ⟨hfunc, rfl⟩ := hdecl
        exact ⟨.global (.inr rfl) hx hfunc, rfl⟩
      · obtain ⟨sig, m, hsig, -, hglobal, hm, rfl⟩ := gives_declareFunction.mp hdecl
        exact ⟨.prototype hsig hglobal hm, rfl⟩
    · obtain ⟨place, name, params, t, -, rfl, rfl, hdef, rfl⟩ := gives_visit_definition_iff.mp hv
      exact ⟨.definition hdef, rfl⟩
  · rintro ⟨hitem, rfl⟩
    cases hitem with
    | @global _ _ _ _ x hform hx hfunc =>
      have hdecl : s.Declares x (s.declareGlobal x) := by
        simp only [State.Declares, hframe, hfunc, and_self]
      rcases hform with rfl | rfl
      · exact gives_visit_declaration.mpr ⟨_, hx, hdecl, rfl⟩
      · exact gives_visit_forward.mpr (.inl ⟨_, hx, hdecl, rfl⟩)
    | prototype hsig hglobal hm =>
      exact gives_visit_forward.mpr (.inr ⟨_, _, _, _, rfl, hframe,
        gives_declareFunction.mpr ⟨_, _, hsig, rfl, hglobal, hm, rfl⟩, rfl⟩)
    | definition hdef =>
      exact gives_visit_definition_iff.mpr ⟨_, _, _, _, hframe, rfl, rfl, hdef, rfl⟩

theorem State.Item.kind (h : s.Item n s') :
    n.kind = .definition ∨ n.kind = .forward ∨ n.kind = .declaration := by
  cases h with
  | global hform => rcases hform with rfl | rfl <;> simp [Tree.kind, BinaryForm.kind]
  | prototype => simp [Tree.kind, BinaryForm.kind]
  | definition => simp [Tree.kind, TernaryForm.kind]

/-- A member of a program is lowered outside functions and leaves the rejections alone. -/
theorem State.Item.outside (h : s.Item n s') (hframe : s.frame = none) :
    s'.frame = none ∧ s'.rejections = s.rejections := by
  cases h with
  | global => exact ⟨hframe, rfl⟩
  | prototype => exact ⟨hframe, rfl⟩
  | definition hdef =>
    obtain ⟨sig, m, fn, s₁, s₂, g, -, -, -, -, hstore, hbody, hg, -, -, rfl⟩ := hdef
    obtain ⟨_, _, -, hframe⟩ := State.opened_frame _ _ fn
    obtain ⟨k, hk, hwithin⟩ := State.within_body hframe rfl hstore hbody hg
    exact ⟨rfl, (hk.trans hwithin).rejections⟩

/-- What a recorded step does after the step itself. -/
def afterRecording : Except Stop Unit → State → Except Stop Unit × State
  | .ok a, t => (.ok a, t)
  | .error (.rejected r), t => (.ok (), { t with rejections := t.rejections ++ [r] })
  | .error (.fault e), t => (.error (.fault e), t)

theorem recording_eq (step : LowerM Unit) (s : State) :
    @Eq (Except Stop Unit × State) (recording step s)
      (afterRecording (step s : Except Stop Unit × State).1
        (step s : Except Stop Unit × State).2) := by
  have hbind : ∀ {α β : Type} (x : StateM State α) (f : α → StateM State β),
      @Eq (β × State) ((x >>= f) s) (f (x s : α × State).1 (x s : α × State).2) := fun _ _ => rfl
  unfold recording
  show (ExceptT.tryCatch step _ : LowerM Unit) s = _
  unfold ExceptT.tryCatch
  refine (hbind (step : StateM State (Except Stop Unit)) _).trans ?_
  rcases (step s : Except Stop Unit × State) with ⟨(r | e) | a, t⟩ <;> rfl

/-- A recorded step ends well or with a fault. -/
theorem recording_cases (step : LowerM Unit) (s : State) :
    (∃ t, Gives (recording step) s () t) ∨
      ∃ f t, @Eq (Except Stop Unit × State) (recording step s) (.error (.fault f), t) := by
  unfold Gives
  rw [recording_eq]
  rcases (step s : Except Stop Unit × State) with ⟨(r | f) | a, t⟩
  · exact .inl ⟨_, rfl⟩
  · exact .inr ⟨f, t, rfl⟩
  · exact .inl ⟨t, rfl⟩

/-- The step succeeds, or it is rejected and this is recorded. -/
theorem gives_recording :
    Gives (recording step) s u s' ↔ Gives step s u s' ∨
      ∃ r t, @Eq (Except Stop Unit × State) (step s) (.error (.rejected r), t) ∧
        s' = { t with rejections := t.rejections ++ [r] } := by
  unfold Gives
  rw [recording_eq]
  rcases (step s : Except Stop Unit × State) with ⟨(r | e) | a, t⟩
  · simp only [afterRecording, Prod.mk.injEq, true_and, reduceCtorEq, false_and, false_or,
      Except.error.injEq, Stop.rejected.injEq]
    constructor
    · rintro rfl
      exact ⟨r, t, ⟨rfl, rfl⟩, rfl⟩
    · rintro ⟨_, _, ⟨rfl, rfl⟩, rfl⟩
      rfl
  · simp [afterRecording]
  · simp [afterRecording]

/-- Lower a member of a program. -/
def visitItem (n : Node) : LowerM Unit := do
  match n.kind with
  | .definition | .forward | .declaration =>
    let _ ← visit n
  | kind => rejectAt n (.atTopLevel kind)

theorem gives_visitItem :
    Gives (visitItem n) s u s' ↔
      (n.kind = .definition ∨ n.kind = .forward ∨ n.kind = .declaration) ∧
        ∃ v, Gives (visit n) s v s' := by
  unfold visitItem
  split
  next h => simp [h]
  next h => simp [h]
  next h => simp [h]
  next h₁ h₂ h₃ =>
    simp only [gives_rejectAt, false_iff, not_and]
    rintro (h | h | h)
    · exact absurd h h₁
    · exact absurd h h₂
    · exact absurd h h₃

theorem gives_visitTopLevel_nil : Gives (visitTopLevel []) s u s' ↔ s' = s := by
  rw [visitTopLevel]
  simp

theorem visitTopLevel_some (n : Node) (ns : List (Option Node)) :
    visitTopLevel (some n :: ns) = (do
      recording (visitItem n)
      visitTopLevel ns) := by
  rw [visitTopLevel]
  rfl

theorem rejections_of_gives_visitItem (h : Gives (visitItem n) s u s') :
    s'.rejections = s.rejections := by
  obtain ⟨hkind, v, hv⟩ := gives_visitItem.mp h
  cases hframe : s.frame with
  | none => exact (((gives_visit_item hframe hkind).mp hv).1.outside hframe).2
  | some f =>
    obtain ⟨g, hg⟩ := within_of_gives_visit n n rfl s v s' f hv hframe
    exact hg.rejections

/-- A recorded step that leaves no rejection has succeeded. -/
theorem gives_of_gives_recording (h : Gives (recording step) s u s')
    (hclean : s'.rejections = []) : Gives step s u s' := by
  rcases gives_recording.mp h with h | ⟨r, t, -, rfl⟩
  · exact h
  · simp at hclean

theorem rejections_of_gives_visitTopLevel (h : Gives (visitTopLevel ns) s u s')
    (hclean : s'.rejections = []) : s.rejections = [] := by
  induction ns generalizing s with
  | nil =>
    obtain rfl := gives_visitTopLevel_nil.mp h
    exact hclean
  | cons n ns ih =>
    cases n with
    | none => simp [visitTopLevel] at h
    | some t =>
      rw [visitTopLevel_some, gives_bind] at h
      obtain ⟨_, s₁, hitem, hrest⟩ := h
      have hs₁ := ih hrest
      rw [← rejections_of_gives_visitItem (gives_of_gives_recording hitem hs₁), hs₁]

/-- When nothing is rejected in the end, the members of a program are lowered one after the
other. -/
theorem gives_visitTopLevel_cons {n : Option Node} (hframe : s.frame = none)
    (hclean : s'.rejections = []) :
    Gives (visitTopLevel (n :: ns)) s u s' ↔
      ∃ t s₁, n = some t ∧ s.Item t s₁ ∧ Gives (visitTopLevel ns) s₁ u s' := by
  cases n with
  | none => simp [visitTopLevel]
  | some t =>
    rw [visitTopLevel_some, gives_bind]
    constructor
    · rintro ⟨_, s₁, hitem, hrest⟩
      have hs₁ := rejections_of_gives_visitTopLevel hrest hclean
      obtain ⟨hkind, v, hv⟩ := gives_visitItem.mp (gives_of_gives_recording hitem hs₁)
      exact ⟨t, s₁, rfl, ((gives_visit_item hframe hkind).mp hv).1, hrest⟩
    · rintro ⟨_, s₁, ⟨⟩, hitem, hrest⟩
      have hv := (gives_visit_item hframe hitem.kind).mpr ⟨hitem, rfl⟩
      exact ⟨(), s₁, gives_recording.mpr (.inl (gives_visitItem.mpr ⟨hitem.kind, none, hv⟩)), hrest⟩

/-! ## Steady states

Members lead from such states to such states. -/

/-- What holds between two members of a program, also where some of them were rejected. -/
structure State.Steady (s : State) : Prop where
  frame : s.frame = none
  scope : s.scope = ""
  params : ∀ name fn, s.module.func? name = some fn → ∀ p ∈ fn.params, p.ty = .i32
  ret : ∀ name fn, s.module.func? name = some fn → fn.ret = .void ∨ fn.ret = .i32
  bodiless : ∀ name fn, s.module.func? name = some fn → name ∉ s.defined → fn.blocks = []
  declared : ∀ name, name ∈ s.defined → s.module.func? name ≠ none
  owned : ∀ x slot owner, (x, .var slot owner) ∈ s.symbols →
    (owner = none ∧ slot = .global x .i32 ∧ s.module.hasGlobal x = true) ∨
    ∃ func ∈ s.defined, owner = some func

/-- What holds between two members of a program, where all of them were lowered. -/
structure State.Sound (s : State) : Prop extends s.Steady where
  filled : ∀ name fn, s.module.func? name = some fn → name ∈ s.defined → fn.blocks ≠ []

theorem State.Sound.bodies (hs : s.Sound) (name : String) (fn : Func)
    (hfn : s.module.func? name = some fn) : fn.blocks = [] ↔ name ∉ s.defined :=
  ⟨fun hempty hmem => hs.filled name fn hfn hmem hempty, hs.bodiless name fn hfn⟩

/-- The global variables stay; the functions stay, with their types, and those that are defined stay
as they are. -/
structure State.Later (s s' : State) : Prop where
  funcs : ∀ name fn, s.module.func? name = some fn → ∃ fn', s'.module.func? name = some fn' ∧
    fn'.ret = fn.ret ∧ fn'.params.map (·.ty) = fn.params.map (·.ty) ∧ (name ∈ s.defined → fn' = fn)
  defined : ∀ name, name ∈ s.defined → name ∈ s'.defined
  globals : ∀ x, s.module.hasGlobal x = true → s'.module.hasGlobal x = true

theorem State.Later.refl (s : State) : s.Later s :=
  ⟨fun _ fn h => ⟨fn, h, rfl, rfl, fun _ => rfl⟩, fun _ h => h, fun _ h => h⟩

theorem State.Later.trans (h₁ : s.Later t) (h₂ : t.Later s') : s.Later s' where
  funcs name fn hfn := by
    obtain ⟨fn₁, hfn₁, hret₁, hparams₁, hsame₁⟩ := h₁.funcs name fn hfn
    obtain ⟨fn₂, hfn₂, hret₂, hparams₂, hsame₂⟩ := h₂.funcs name fn₁ hfn₁
    exact ⟨fn₂, hfn₂, hret₂.trans hret₁, hparams₂.trans hparams₁,
      fun h => (hsame₂ (h₁.defined name h)).trans (hsame₁ h)⟩
  defined name h := h₂.defined name (h₁.defined name h)
  globals x h := h₂.globals x (h₁.globals x h)

theorem State.sound_start (sourceName : String) : (State.start sourceName).Sound where
  frame := rfl
  scope := rfl
  params := by simp [State.start, Module.func?]
  ret := by simp [State.start, Module.func?]
  bodiless := by simp [State.start, Module.func?]
  filled := by simp [State.start, Module.func?]
  declared := by simp [State.start]
  owned := by simp [State.start]

theorem types_eq_of_map_eq {qs : List Param} (h : ps.map (·.ty) = qs.map (·.ty))
    (hqs : ∀ q ∈ qs, q.ty = .i32) : ∀ p ∈ ps, p.ty = .i32 := by
  intro p hp
  have hmem : p.ty ∈ qs.map (·.ty) := h ▸ List.mem_map_of_mem hp
  obtain ⟨q, hq, hty⟩ := List.mem_map.mp hmem
  rw [← hty, hqs q hq]

theorem DeclaresFunction.not_mem_defined (hs : s.Steady) {sig : Signature}
    (h : DeclaresFunction s.defined name sig true s.module m) : name ∉ s.defined := by
  cases h with
  | first h => exact fun hmem => hs.declared name hmem h
  | again fn h hdef hsame => exact hdef rfl

theorem Body.blocks_ne_nil (h : Body name ps items m fn t t₁ t₂ f g) : fn.blocks ≠ [] := by
  obtain ⟨k, hk, hkg⟩ := State.within_body h.start h.func h.params h.statements h.finish
  obtain ⟨label, hfirst, -⟩ := h.first
  have hlength := ((hk.grows.trans hkg.grows).trans (Frame.extends_endWith g (.ret none))).length
  rw [← h.blocks, hfirst] at hlength
  intro hnil
  simp [hnil] at hlength

/-- The names of the new functions of a definition's state. -/
theorem Body.owned_end (h : Body name ps items m fn t t₁ t₂ f g) {x : String} {slot : Value}
    {owner : Option String} (hmem : (x, .var slot owner) ∈ t₂.symbols) :
    (x, .var slot owner) ∈ t.symbols ∨ owner = some name := by
  obtain ⟨k, hk, hkg⟩ := State.within_body h.start h.func h.params h.statements h.finish
  obtain ⟨new, hnew, hown⟩ := (hk.trans hkg).symbols
  rw [hnew] at hmem
  rcases List.mem_append.mp hmem with hmem | hmem
  · obtain ⟨slot', hslot⟩ := hown _ hmem
    obtain ⟨-, rfl⟩ : slot = slot' ∧ owner = some f.func := by simpa using hslot
    exact .inr (by rw [h.func])
  · exact .inl hmem

/-- A member that changes no function. -/
theorem State.Steady.same (hs : s.Steady) (hframe : s'.frame = none) (hscope : s'.scope = "")
    (hfuncs : ∀ name, s'.module.func? name = s.module.func? name)
    (hdefined : s'.defined = s.defined)
    (hglobals : ∀ x, s.module.hasGlobal x = true → s'.module.hasGlobal x = true)
    (howned : ∀ x slot owner, (x, .var slot owner) ∈ s'.symbols →
      (owner = none ∧ slot = .global x .i32 ∧ s'.module.hasGlobal x = true) ∨
      ∃ func ∈ s.defined, owner = some func) : s'.Steady ∧ s.Later s' := by
  refine ⟨⟨hframe, hscope, ?_, ?_, ?_, ?_, ?_⟩, ⟨?_, ?_, hglobals⟩⟩
  · intro name fn hfn
    exact hs.params name fn (hfuncs name ▸ hfn)
  · intro name fn hfn
    exact hs.ret name fn (hfuncs name ▸ hfn)
  · intro name fn hfn
    rw [hdefined]
    exact hs.bodiless name fn (hfuncs name ▸ hfn)
  · intro name hname
    rw [hfuncs]
    exact hs.declared name (hdefined ▸ hname)
  · rw [hdefined]
    exact howned
  · intro name fn hfn
    exact ⟨fn, (hfuncs name).trans hfn, rfl, rfl, fun _ => rfl⟩
  · intro name hname
    rwa [hdefined]

/-- A member that declares or defines a function, which was not defined before. -/
theorem State.Steady.change (hs : s.Steady) (hframe : s'.frame = none) (hscope : s'.scope = "")
    (hothers : ∀ other, other ≠ name → s'.module.func? other = s.module.func? other)
    (hfn : s'.module.func? name = some fn) (hname : name ∉ s.defined)
    (hold : ∀ fn₀, s.module.func? name = some fn₀ →
      fn.ret = fn₀.ret ∧ fn.params.map (·.ty) = fn₀.params.map (·.ty))
    (hparams : ∀ p ∈ fn.params, p.ty = .i32) (hret : fn.ret = .void ∨ fn.ret = .i32)
    (hdefined : s'.defined = name :: s.defined ∨ (s'.defined = s.defined ∧ fn.blocks = []))
    (hglobals : ∀ x, s'.module.hasGlobal x = s.module.hasGlobal x)
    (howned : ∀ x slot owner, (x, .var slot owner) ∈ s'.symbols → (x, .var slot owner) ∈ s.symbols ∨
      ∃ func ∈ s'.defined, owner = some func) :
    s'.Steady ∧ s.Later s' := by
  -- the function of this name is new or changed, the others are as before
  have hcases : ∀ {motive : String → Func → Prop}, motive name fn →
      (∀ other fn', other ≠ name → s.module.func? other = some fn' → motive other fn') →
      ∀ other fn', s'.module.func? other = some fn' → motive other fn' := by
    intro motive hthis hrest other fn' hfn'
    by_cases hother : other = name
    · subst hother
      obtain rfl := Option.mem_unique hfn hfn'
      exact hthis
    · exact hrest other fn' hother (hothers other hother ▸ hfn')
  have hmem : ∀ other, other ∈ s.defined → other ∈ s'.defined := by
    intro other hother
    rcases hdefined with hdef | ⟨hdef, -⟩
    · rw [hdef]
      exact List.mem_cons_of_mem _ hother
    · rwa [hdef]
  refine ⟨⟨hframe, hscope, ?_, ?_, ?_, ?_, ?_⟩, ⟨?_, hmem, fun x hx => (hglobals x).trans hx⟩⟩
  · exact hcases hparams fun other fn' _ => hs.params other fn'
  · exact hcases hret fun other fn' _ => hs.ret other fn'
  · refine hcases ?_ ?_
    · intro hnot
      rcases hdefined with hdef | ⟨-, hempty⟩
      · exact absurd (hdef ▸ List.mem_cons_self) hnot
      · exact hempty
    · intro other fn' _ hfn' hnot
      exact hs.bodiless other fn' hfn' fun h => hnot (hmem other h)
  · intro other hother
    by_cases h : other = name
    · simp [h, hfn]
    · rw [hothers other h]
      rcases hdefined with hdef | ⟨hdef, -⟩
      · exact hs.declared other (by simpa [hdef, h] using hother)
      · exact hs.declared other (hdef ▸ hother)
  · intro x slot owner hx
    rcases howned x slot owner hx with hx | hx
    · rcases hs.owned x slot owner hx with ⟨hnone, hslot, hglobal⟩ | ⟨func, hfunc, howner⟩
      · exact .inl ⟨hnone, hslot, (hglobals x).trans hglobal⟩
      · exact .inr ⟨func, hmem func hfunc, howner⟩
    · exact .inr hx
  · intro other fn' hfn'
    by_cases h : other = name
    · subst h
      obtain ⟨hret', hparams'⟩ := hold fn' hfn'
      exact ⟨fn, hfn, hret', hparams', fun hmem => absurd hmem hname⟩
    · exact ⟨fn', (hothers other h).trans hfn', rfl, rfl, fun _ => rfl⟩

section

variable {sig : Signature} {renamed : List Param}

/-- Beginning a body gives the parameters their names there, and concerns no other function. -/
theorem DeclaresFunction.func?_renamed (hdecl : DeclaresFunction s.defined name sig true s.module m)
    (hfn : m.func? name = some fn) (renamed : List Param) (other : String) :
    (m.modifyFunc name fun fn => { fn with params := renamed }).func? other =
      if other = name then some { fn with params := renamed } else s.module.func? other := by
  rw [Module.func?_setParams]
  by_cases hother : other = name
  · simp [hother, hfn]
  · simp [hother, hdecl.func?.1 other hother]

theorem DeclaresFunction.func?_filled (hdecl : DeclaresFunction s.defined name sig true s.module m)
    (hfn : m.func? name = some fn) (renamed : List Param) (blocks : List IR.Block)
    (other : String) :
    ((m.modifyFunc name fun fn => { fn with params := renamed }).modifyFunc name
      fun fn => { fn with blocks := blocks }).func? other =
      if other = name then some { fn with params := renamed, blocks := blocks }
        else s.module.func? other := by
  rw [Module.func?_setBlocks, hdecl.func?_renamed hfn]
  split <;> rfl

/-- Also while a body is lowered, all parameters are numbers, and so is what is returned. -/
theorem State.Steady.types_renamed (hs : s.Steady) (hsig : Signature.ofNodes? ret params = some sig)
    (hdecl : DeclaresFunction s.defined name sig true s.module m) (hfn : m.func? name = some fn)
    (hrenamed : renamed.map (·.ty) = sig.params.map (·.ty)) {callee : String} {fn' : Func}
    (hfn' : (m.modifyFunc name fun fn => { fn with params := renamed }).func? callee = some fn') :
    (∀ p ∈ fn'.params, p.ty = .i32) ∧ (fn'.ret = .void ∨ fn'.ret = .i32) := by
  rw [hdecl.func?_renamed hfn] at hfn'
  split at hfn'
  · obtain ⟨-, fn₀, hfn₀, hret, -⟩ := hdecl.func?
    obtain rfl := Option.mem_unique hfn hfn₀
    obtain ⟨hsigParams, hsigRet⟩ := Signature.types hsig
    obtain rfl := Option.some.inj hfn'
    exact ⟨types_eq_of_map_eq hrenamed hsigParams, hret ▸ hsigRet⟩
  · exact ⟨hs.params callee fn' hfn', hs.ret callee fn' hfn'⟩

/-- The variables that are known where a body begins are those that were known before. -/
theorem State.var_mem_opened {x : String} {slot : Value} {owner : Option String} :
    (x, .var slot owner) ∈ (({ s with scope := name }.declareFunction name sig m).opened
      name fn).symbols ↔
      (x, .var slot owner) ∈ s.symbols := by
  simp [State.opened, State.declareFunction]

end

/-- A definition leaves a steady state and gives the function a body. -/
theorem State.Defines.body (hs : s.Steady) (h : s.Defines ret name params items s') :
    s'.Steady ∧ s.Later s' ∧ s'.defined = name :: s.defined ∧
      (∀ other, other ≠ name → s'.module.func? other = s.module.func? other) ∧
      ∃ sig fn t t₁ t₂ f g, Signature.ofNodes? ret params = some sig ∧
        s'.module.func? name = some fn ∧
        Body name sig.params items s'.module fn t t₁ t₂ f g ∧
        t.symbols = (name, .func) :: s.symbols ∧ s'.symbols = t₂.symbols := by
  obtain ⟨sig, m, fn, t₁, t₂, g, hsig, -, hdecl, hfn, hparams, hitems, hg, hopen, hflow, rfl⟩ := h
  obtain ⟨names, label, hlabel, hframe⟩ :=
    State.opened_frame ({ s with scope := name }.declareFunction name sig m) name fn
  obtain ⟨k, hk, hkg⟩ := State.within_body hframe rfl hparams hitems hg
  have hwithin := hk.trans hkg
  have hname : name ∉ s.defined := hdecl.not_mem_defined hs
  obtain ⟨-, fn', hfn', -, htypes, -, hold⟩ := hdecl.func?
  obtain rfl := Option.mem_unique hfn hfn'
  -- the two changes of the module: new names for the parameters, then the blocks
  let renamed := (Frame.renameParams ⟨name, fn.ret, [], none, [], 0⟩ fn.params).1
  have hrenamed : renamed.map (·.ty) = sig.params.map (·.ty) :=
    (Frame.renameParams_ty _ _).trans htypes
  have hmodule : t₂.module = m.modifyFunc name fun fn => { fn with params := renamed } :=
    hwithin.module
  have hfunc : g.func = name := hwithin.grows.func
  rw [hfunc, hmodule]
  have hfinal := hdecl.func?_filled hfn renamed (g.endWith (.ret none)).blocks
  have hbody : Body name sig.params items
      ((m.modifyFunc name fun fn => { fn with params := renamed }).modifyFunc name
        fun fn => { fn with blocks := (g.endWith (.ret none)).blocks })
      { fn with params := renamed, blocks := (g.endWith (.ret none)).blocks }
      (({ s with scope := name }.declareFunction name sig m).opened name fn) t₁ t₂ _ g :=
    { start := hframe
      func := rfl
      ret := rfl
      cursor := rfl
      count := rfl
      first := ⟨label, rfl, hlabel⟩
      params := hparams
      statements := hitems
      finish := hg
      isOpen := hopen
      flow := hflow
      blocks := rfl
      paramTypes := hrenamed
      owned := by
        intro x slot owner hmem
        rcases hs.owned x slot owner (State.var_mem_opened.mp hmem) with ⟨hnone, hslot,
          -⟩ | ⟨other, hother, rfl⟩
        · exact .inl ⟨hnone, hslot⟩
        · exact .inr ⟨other, fun h => hname (h ▸ hother), rfl⟩
      globals := by
        intro x slot hmem
        rcases hs.owned x slot none (State.var_mem_opened.mp hmem) with ⟨-, -, hglobal⟩ | ⟨_, -, h⟩
        · exact (hdecl.hasGlobal x).trans hglobal
        · cases h
      types := fun _ _ hfn' => hs.types_renamed hsig hdecl hfn hrenamed hfn'
      callees := by
        intro callee fn' hfn'
        have hfn' := (hdecl.func?_renamed hfn renamed callee).symm.trans hfn'
        rw [hfinal]
        by_cases hcallee : callee = name
        · rw [if_pos hcallee] at hfn' ⊢
          obtain rfl := Option.some.inj hfn'
          exact ⟨_, rfl, rfl, rfl⟩
        · rw [if_neg hcallee] at hfn' ⊢
          exact ⟨fn', hfn', rfl, rfl⟩ }
  have hdefined : t₂.defined = name :: s.defined := hwithin.defined
  have hrest := fun other (hother : other ≠ name) => (hfinal other).trans (if_neg hother)
  have hthis := (hfinal name).trans (if_pos rfl)
  obtain ⟨hparamTypes, hret⟩ := hs.types_renamed hsig hdecl hfn hrenamed
    ((hdecl.func?_renamed hfn renamed name).trans (if_pos rfl))
  suffices hsteady : State.Steady _ ∧ s.Later _ from
    ⟨hsteady.1, hsteady.2, hdefined, hrest, sig, _, _, t₁, t₂, _, g, hsig, hthis, hbody, rfl, rfl⟩
  refine hs.change rfl rfl hrest hthis hname ?_ hparamTypes hret (.inl hdefined) hdecl.hasGlobal ?_
  · intro fn₀ hfn₀
    exact ⟨(hold fn₀ hfn₀).1, hrenamed.trans (htypes.symm.trans (hold fn₀ hfn₀).2)⟩
  · intro x slot owner hmem
    rcases hbody.owned_end hmem with hmem | rfl
    · exact .inl (State.var_mem_opened.mp hmem)
    · exact .inr ⟨name, hdefined ▸ List.mem_cons_self, rfl⟩

/-- A member that is accepted leaves no body under construction, and only adds to the module. -/
theorem State.Item.steady (hs : s.Steady) (h : s.Item n s') : s'.Steady ∧ s.Later s' := by
  have hframe := (h.outside hs.frame).1
  cases h with
  | @global _ _ _ _ x hform hx hfunc =>
    have hglobals : ∀ y, (s.declareGlobal x).module.hasGlobal y = true ↔ y = x.name ∨
        s.module.hasGlobal y = true :=
      s.module.hasGlobal_declare x.name
    refine hs.same hframe hs.scope (s.func?_declareGlobal x) rfl
      (fun y hy => (hglobals y).mpr (.inr hy)) ?_
    intro y slot owner hmem
    rcases List.mem_cons.mp hmem with h | hmem
    · cases h
      exact .inl ⟨rfl, rfl, (hglobals x.name).mpr (.inl rfl)⟩
    · rcases hs.owned y slot owner hmem with ⟨hnone, hslot, hglobal⟩ | hother
      · exact .inl ⟨hnone, hslot, (hglobals y).mpr (.inr hglobal)⟩
      · exact .inr hother
  | @prototype _ _ _ _ name sig m hsig hglobal hdecl =>
    have hsymbols : ∀ x slot owner, (x, Symbol.var slot owner) ∈
        (s.declareFunction name sig m).symbols → (x, Symbol.var slot owner) ∈ s.symbols := by
      intro x slot owner hmem
      simpa [State.declareFunction] using hmem
    obtain ⟨hothers, fn, hfn, hret, hparams, hblocks, hold⟩ := hdecl.func?
    obtain ⟨hsigParams, hsigRet⟩ := Signature.types hsig
    have hglobals := hdecl.hasGlobal
    cases hdecl with
    | first hnone =>
      have hname : name ∉ s.defined := fun hmem => hs.declared name hmem hnone
      have hempty : fn.blocks = [] := by simpa [hnone] using hblocks
      exact hs.change hframe hs.scope hothers hfn hname hold (types_eq_of_map_eq hparams hsigParams)
        (hret ▸ hsigRet)
        (.inr ⟨rfl, hempty⟩) hglobals fun x slot owner hmem => .inl (hsymbols x slot owner hmem)
    | again _ _ _ _ =>
      exact hs.same hframe hs.scope (fun _ => rfl) rfl (fun _ h => h) fun x slot owner hmem =>
        hs.owned x slot owner (hsymbols x slot owner hmem)
  | @definition _ _ _ _ name t _ hdef =>
    obtain ⟨hsteady, hlater, -⟩ := hdef.body hs
    exact ⟨hsteady, hlater⟩

theorem State.Item.sound (hs : s.Sound) (h : s.Item n s') : s'.Sound ∧ s.Later s' := by
  obtain ⟨hsteady, hlater⟩ := h.steady hs.toSteady
  refine ⟨⟨hsteady, ?_⟩, hlater⟩
  intro name fn hfn hmem
  by_cases hold : name ∈ s.defined
  · -- it was defined before, and has kept its body
    obtain ⟨fn₀, hfn₀⟩ := Option.ne_none_iff_exists'.mp (hs.declared name hold)
    obtain ⟨fn', hfn', -, -, hsame⟩ := hlater.funcs name fn₀ hfn₀
    obtain rfl : fn = fn₀ := (Option.mem_unique hfn hfn').trans (hsame hold)
    exact hs.filled name fn hfn₀ hold
  · cases h with
    | global => exact absurd hmem hold
    | prototype => exact absurd hmem hold
    | definition hdef =>
      obtain ⟨-, -, hdefined, -, _, fn', _, _, _, _, _, -, hfn', hbody, -⟩ := hdef.body hs.toSteady
      rw [hdefined] at hmem
      obtain rfl : name = _ := (List.mem_cons.mp hmem).resolve_right hold
      obtain rfl := Option.mem_unique hfn hfn'
      exact hbody.blocks_ne_nil

theorem State.Item.found (hs : s.module.Found) (h : s.Item n s') : s'.module.Found := by
  cases h with
  | global _ _ _ =>
    unfold State.declareGlobal
    simp only
    split
    · exact hs
    · exact hs
  | prototype _ _ hdecl => exact hdecl.found hs
  | definition hdef =>
    obtain ⟨sig, m, fn, t₁, t₂, g, -, -, hdecl, -, hparams, hitems, hg, -, -, rfl⟩ := hdef
    obtain ⟨names, label, -, hframe⟩ :=
      State.opened_frame ({ s with scope := _ }.declareFunction _ sig m) _ fn
    obtain ⟨k, hk, hkg⟩ := State.within_body hframe rfl hparams hitems hg
    have hopened : t₂.module.Found := by
      rw [(hk.trans hkg).module]
      exact (hdecl.found hs).modifyFunc _ fun _ => rfl
    exact hopened.modifyFunc _ fun _ => rfl

/-! ## The whole program -/

theorem found_of_gives_visitTopLevel (hframe : s.frame = none) (hs : s.module.Found)
    (h : Gives (visitTopLevel ns) s u s') (hclean : s'.rejections = []) : s'.module.Found := by
  induction ns generalizing s with
  | nil =>
    obtain rfl := gives_visitTopLevel_nil.mp h
    exact hs
  | cons n ns ih =>
    obtain ⟨t, s₁, rfl, hitem, hrest⟩ := (gives_visitTopLevel_cons hframe hclean).mp h
    exact ih (hitem.outside hframe).1 (hitem.found hs) hrest

/-- Each member of a program is lowered from a sound state to one whose functions stay until the
end. -/
theorem lowered_of_gives_visitTopLevel (hs : s.Sound) (h : Gives (visitTopLevel ns) s u s')
    (hclean : s'.rejections = []) :
    s'.Sound ∧ s.Later s' ∧
      ∀ n ∈ ns, ∃ (t : Node) (s₁ s₂ : State), n = some t ∧ s₁.Sound ∧ s₁.Item t s₂ ∧
        s₂.Later s' := by
  induction ns generalizing s with
  | nil =>
    obtain rfl := gives_visitTopLevel_nil.mp h
    exact ⟨hs, .refl _, by simp⟩
  | cons n ns ih =>
    obtain ⟨t, s₁, rfl, hitem, hrest⟩ := (gives_visitTopLevel_cons hs.frame hclean).mp h
    obtain ⟨hs₁, hlater₁⟩ := hitem.sound hs
    obtain ⟨hs', hlater, hall⟩ := ih hs₁ hrest
    refine ⟨hs', hlater₁.trans hlater, ?_⟩
    intro m hm
    rcases List.mem_cons.mp hm with rfl | hm
    · exact ⟨t, s, s₁, rfl, hs, hitem, hlater⟩
    · exact hall m hm

/-- A node that defines this function, with the parts of the definition. -/
def DefinesAt (n : Option Node) (name : String) (ret params : Option Node) (t : Node) : Prop :=
  ∃ stamp place, n = some (.ternary stamp .definition ret
    (some (.unary place (.signature name) params)) (some t))

/-- The functions that are defined in the end have a definition. -/
theorem definition_of_mem_defined (hs : s.Sound) (h : Gives (visitTopLevel ns) s u s')
    (hclean : s'.rejections = []) (hname : name ∈ s'.defined) (hnew : name ∉ s.defined) :
    ∃ n ∈ ns, ∃ ret params t, DefinesAt n name ret params t := by
  induction ns generalizing s with
  | nil =>
    obtain rfl := gives_visitTopLevel_nil.mp h
    exact absurd hname hnew
  | cons n ns ih =>
    obtain ⟨t, s₁, rfl, hitem, hrest⟩ := (gives_visitTopLevel_cons hs.frame hclean).mp h
    by_cases hs₁ : name ∈ s₁.defined
    · refine ⟨some t, List.mem_cons_self, ?_⟩
      cases hitem with
      | global => exact absurd hs₁ hnew
      | prototype => exact absurd hs₁ hnew
      | @definition stamp place ret params other body _ hdef =>
        obtain ⟨-, -, hdefined, -⟩ := hdef.body hs.toSteady
        rw [hdefined] at hs₁
        rcases List.mem_cons.mp hs₁ with rfl | hmem
        · exact ⟨ret, params, body, stamp, place, rfl⟩
        · exact absurd hmem hnew
    · obtain ⟨m, hm, hdef⟩ := ih (hitem.sound hs).1 hrest hs₁
      exact ⟨m, List.mem_cons_of_mem _ hm, hdef⟩

/-- Each definition of a program has its body in the module at the end. -/
theorem body_of_definition (hs : s.Sound) (h : Gives (visitTopLevel ns) s u s')
    (hclean : s'.rejections = []) {n : Option Node} (hn : n ∈ ns) {t : Node}
    (hdef : DefinesAt n name ret params t) :
    ∃ sig fn t₀ t₁ t₂ f g, Signature.ofNodes? ret params = some sig ∧
      s'.module.func? name = some fn ∧
      Body name sig.params (bodyItems t) s'.module fn t₀ t₁ t₂ f g := by
  obtain ⟨stamp, place, rfl⟩ := hdef
  obtain ⟨-, -, hall⟩ := lowered_of_gives_visitTopLevel hs h hclean
  obtain ⟨_, s₁, s₂, ⟨⟩, hs₁, hitem, hlater⟩ := hall _ hn
  cases hitem with
  | definition hdef =>
    obtain ⟨hs₂, -, hdefined, -, sig, fn, t₀, t₁, t₂, f, g, hsig, hfn, hbody, -⟩ :=
      hdef.body hs₁.toSteady
    obtain ⟨fn', hfn', -, -, hsame⟩ := hlater.funcs name fn hfn
    obtain rfl : fn' = fn := hsame (by simp [hdefined])
    have hglobals x slot hx := hlater.globals x (hbody.globals x slot hx)
    refine ⟨sig, fn', t₀, t₁, t₂, f, g, hsig, hfn',
      { hbody with globals := hglobals, callees := ?_ }⟩
    intro callee fn₁ hfn₁
    obtain ⟨fn₂, hfn₂, hret₂, hparams₂⟩ := hbody.callees callee fn₁ hfn₁
    obtain ⟨fn₃, hfn₃, hret₃, hparams₃, -⟩ := hlater.funcs callee fn₂ hfn₂
    exact ⟨fn₃, hfn₃, hret₃.trans hret₂, hparams₃.trans hparams₂⟩

theorem State.failure?_eq_none (s : State) : s.failure? = none ↔ s.rejections = [] := by
  unfold State.failure?
  cases s.rejections <;> simp [Failure.ofDiagnostics?]

theorem State.run_eq {p : Except Stop Unit × State} (hs : s.warnings = [])
    (h : @Eq (Except Stop Unit × State) (step s) p) :
    step.run.run { s with warnings := [] } = p := by
  have hclear : { s with warnings := [] } = s := by rw [← hs]
  rw [hclear]
  exact h

/-- A program is lowered as one step that may be rejected. -/
theorem build_eq_ok_iff {root : Node} :
    build sourceName (some root) = .ok out ↔
      Gives (recording do let _ ← visit root) (State.start sourceName) () out.state ∧
        out = ⟨out.state.failure?, out.state.warnings, out.state⟩ := by
  have hbuild : build sourceName (some root) =
      ((State.start sourceName).run (recording do let _ ← visit root)).map fun outcome =>
        ⟨outcome.state.failure?, outcome.warnings, outcome.state⟩ := by
    show (_ >>= _) = _
    cases (State.start sourceName).run (recording do let _ ← visit root) <;> rfl
  rw [hbuild]
  unfold State.run
  rcases recording_cases (do let _ ← visit root) (State.start sourceName) with ⟨t, ht⟩ | ⟨f, t, ht⟩
  · rw [State.run_eq rfl ht]
    constructor
    · rintro ⟨⟩
      exact ⟨ht, rfl⟩
    · rintro ⟨h, hout⟩
      obtain ⟨-, rfl⟩ := ht.unique h
      rw [hout]
      rfl
  · rw [State.run_eq rfl ht]
    refine iff_of_false (by simp [Except.map]) ?_
    rintro ⟨h, -⟩
    exact absurd (ht.symm.trans h) (by simp)

/-- A program is lowered without a failure exactly if its members are and nothing is rejected. -/
theorem build_program_iff :
    build sourceName (some (.seq stamp .program items)) = .ok out ∧ out.result = none ↔
      Gives (visitTopLevel items) (State.start sourceName) () out.state ∧
        out.state.rejections = [] ∧
        out = ⟨none, out.state.warnings, out.state⟩ := by
  rw [build_eq_ok_iff]
  constructor
  · rintro ⟨⟨hrun, hout⟩, hresult⟩
    have hclean : out.state.rejections = [] := by
      rw [← State.failure?_eq_none, ← hresult, hout]
    have hvisit := gives_of_gives_recording hrun hclean
    simp only [gives_bind, gives_pure] at hvisit
    obtain ⟨v, _, hv, -, rfl⟩ := hvisit
    obtain ⟨-, hitems, -⟩ := gives_visit_program.mp hv
    rw [(State.failure?_eq_none _).mpr hclean] at hout
    exact ⟨hitems, hclean, hout⟩
  · rintro ⟨hitems, hclean, hout⟩
    have hfailure := (State.failure?_eq_none _).mpr hclean
    refine ⟨⟨gives_recording.mpr (.inl ?_), by rw [hfailure]; exact hout⟩, by rw [hout]⟩
    simp only [gives_bind, gives_pure]
    exact ⟨none, _, gives_visit_program.mpr ⟨rfl, hitems, rfl⟩, trivial, rfl⟩

end CSubset.Lowering
