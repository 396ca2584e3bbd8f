import CSubset.Proofs.Lowering.Stops
import CSubset.Proofs.Related
import CSubset.Proofs.Tree.Names
import CSubset.Proofs.Visibility.Owned

/-!
# Two runs of lowering side by side

Two states are twins if they agree in all that lowering reads, but for what a licence allows
(`Licence`). It may allow them to differ in some functions that both have defined: in the bodies and
in the names of the parameters. It may also allow them to differ in what is reported, and in what a
name stands for that nobody can use any more: a variable of a function whose definition is over
(`State.Hides`). Then only the names `used` and those of the function that is being lowered are
compared. Otherwise the states are the same but for the positions in the reports, which are related.

From twins, two steps run in parallel if they end in the same way, with the same result, and leave
twins (`Parallel`). The primitive steps of lowering run in parallel with themselves.
-/

namespace CSubset.Lowering

open IR (Ty Value Op Term Block Func Param Module)

variable {n n' : Node} {name x base : String} {sym : Symbol}

/-! ## Reports -/

/-- In what two states may differ. -/
structure Licence where
  /-- Functions that both have defined, in different ways. -/
  funcs : String → Prop
  /-- The reports, and names that nobody can use. -/
  reports : Prop
  /-- How the positions in reports are related that agree otherwise. -/
  near : Pos → Pos → Prop

/-- The places of two nodes of one kind. -/
def SamePlace (R : Pos → Pos → Prop) (p p' : Place) : Prop := p'.kind = p.kind ∧ R p.pos p'.pos

/-- The same cause, at places that are related. -/
structure Rejection.Near (R : Pos → Pos → Prop) (r r' : Rejection) : Prop where
  cause : r'.cause = r.cause
  place : Option.Rel (SamePlace R) r.place r'.place
  func : r'.func = r.func

structure Warning.Near (R : Pos → Pos → Prop) (w w' : Warning) : Prop where
  cause : w'.cause = w.cause
  pos : Option.Rel R w.pos w'.pos

def State.withReports (s : State) (ws : List Warning) (rs : List Rejection) : State :=
  { s with warnings := ws, rejections := rs }

/-- The states are the same but for the positions in the reports. -/
structure State.Near (R : Pos → Pos → Prop) (s t : State) : Prop where
  same : t = s.withReports t.warnings t.rejections
  warnings : List.Forall₂ (Warning.Near R) s.warnings t.warnings
  rejections : List.Forall₂ (Rejection.Near R) s.rejections t.rejections

/-- Both states are changed in the same way, and this does not concern the reports. -/
theorem State.Near.change {R : Pos → Pos → Prop} {s t : State} (h : s.Near R t)
    (change : State → State)
    (hchange : ∀ r ws rs, change (r.withReports ws rs) = (change r).withReports ws rs) :
    (change s).Near R (change t) := by
  have hkept (r : State) : change r = (change r).withReports r.warnings r.rejections :=
    hchange r r.warnings r.rejections
  have hwarnings (r : State) : (change r).warnings = r.warnings := by rw [hkept r]; rfl
  have hrejections (r : State) : (change r).rejections = r.rejections := by rw [hkept r]; rfl
  refine ⟨?_, ?_, ?_⟩
  · rw [hwarnings, hrejections, ← hchange, ← h.same]
  · rw [hwarnings, hwarnings]
    exact h.warnings
  · rw [hrejections, hrejections]
    exact h.rejections

variable {α β : Type} {odd : Licence} {used : String → Prop} {s s' t t' : State} {f g : Frame}

/-! ## States -/

/-- Two functions of one name and one type. -/
structure SameType (fn fn' : Func) : Prop where
  name : fn'.name = fn.name
  ret : fn'.ret = fn.ret
  params : fn'.params.map (·.ty) = fn.params.map (·.ty)

theorem SameType.refl (fn : Func) : SameType fn fn := ⟨rfl, rfl, rfl⟩

/-- Nobody can use the name `x`: it stands for nothing, or for a variable of a function whose
definition is over. -/
def State.Hides (s : State) (x : String) : Prop :=
  ∀ sym, s.symbol? x = some sym →
    ∃ slot func, sym = .var slot (some func) ∧ func ∈ s.defined ∧ s.frame.map (·.func) ≠ some func

/-- The name stands for the same thing in both states, or nobody can use it in either. -/
def State.Agrees (s t : State) (x : String) : Prop :=
  t.symbol? x = s.symbol? x ∨ (s.Hides x ∧ t.Hides x)

structure State.Twins (odd : Licence) (used : String → Prop) (s t : State) : Prop where
  frame : t.frame = s.frame
  scope : t.scope = s.scope
  defined : t.defined = s.defined
  globals : t.module.globals = s.module.globals
  funcs : ∀ name, Option.Rel SameType (s.module.func? name) (t.module.func? name)
  others : ∀ name, ¬odd.funcs name → t.module.func? name = s.module.func? name
  ended : ∀ func, odd.funcs func → func ∈ s.defined
  declared : ∀ name ∈ s.defined, s.module.func? name ≠ none
  current : ∀ f, s.frame = some f → f.func ∈ s.defined
  owned : ∀ x slot func, (x, .var slot (some func)) ∈ s.symbols → func ∈ s.defined
  symbols : ∀ x, used x ∨ s.Owns x → s.Agrees t x
  near : odd.reports ∨ s.Near odd.near t

theorem symbol?_cons (s : State) (name : String) (sym : Symbol) (x : String) :
    State.symbol? { s with symbols := (name, sym) :: s.symbols } x = if x = name then some sym
      else s.symbol? x := by
  unfold State.symbol?
  rw [List.lookup_cons]
  by_cases hx : x = name
  · simp [hx]
  · rw [if_neg hx, beq_false_of_ne hx]

/-- A name stays hidden if another one is bound. -/
theorem State.Hides.bind (h : s.Hides x) (hx : x ≠ name) :
    State.Hides { s with symbols := (name, sym) :: s.symbols } x := by
  intro sym' hsym
  rw [symbol?_cons, if_neg hx] at hsym
  exact h sym' hsym

theorem State.Hides.withFrame (h : s.Hides x) (hf : s.frame = some f) (hfunc : g.func = f.func) :
    (s.withFrame g).Hides x := by
  intro sym hsym
  obtain ⟨slot, func, hvar, hmem, hother⟩ := h sym hsym
  refine ⟨slot, func, hvar, hmem, ?_⟩
  rwa [State.withFrame_frame, Option.map_some, hfunc, ← Option.map_some (f := Frame.func), ← hf]

namespace State.Twins

variable {used' : String → Prop} (h : s.Twins odd used t)

include h

theorem hasGlobal (x : String) : t.module.hasGlobal x = s.module.hasGlobal x := by
  unfold Module.hasGlobal
  rw [h.globals]

theorem hasFunc (name : String) : t.module.hasFunc name = s.module.hasFunc name := by
  have hfind : ∀ m : Module, m.hasFunc name = (m.func? name).isSome := by
    intro m
    rw [Bool.eq_iff_iff, Module.hasFunc, Module.func?, List.find?_isSome, List.any_eq_true]
  rw [hfind, hfind]
  rcases rel_cases (h.funcs name) with ⟨hs, ht⟩ | ⟨fn, fn', hs, ht, -⟩
  · rw [hs, ht]
  · rw [hs, ht]
    rfl

/-- A change of the body under construction, which is the same in both. -/
theorem withFrame (hf : s.frame = some f) (hfunc : g.func = f.func) :
    (s.withFrame g).Twins odd used (t.withFrame g) :=
  { h with
    frame := rfl
    current := by
      rintro _ ⟨⟩
      rw [hfunc]
      exact h.current f hf
    symbols x hx := by
      have hx : used x ∨ s.Owns x := by
        refine hx.imp_right fun ⟨slot, func, hsym, hframe⟩ => ⟨slot, func, hsym, ?_⟩
        rwa [hf, Option.map_some, ← hfunc]
      exact (h.symbols x hx).imp_right fun ⟨hs, ht⟩ =>
        ⟨hs.withFrame hf hfunc, ht.withFrame (h.frame.trans hf) hfunc⟩
    near := h.near.imp_right fun hnear => hnear.change (·.withFrame g) fun _ _ _ => rfl }

/-- The reports are alike, unless that does not matter. -/
theorem reports {ws ws' : List Warning} {rs rs' : List Rejection}
    (hreports : odd.reports ∨ List.Forall₂ (Warning.Near odd.near) ws ws' ∧
      List.Forall₂ (Rejection.Near odd.near) rs rs') :
    (s.withReports ws rs).Twins odd used (t.withReports ws' rs') where
  __ := h
  near := by
    rcases h.near with hodd | hnear
    · exact .inl hodd
    · refine hreports.imp_right fun ⟨hws, hrs⟩ => ⟨?_, hws, hrs⟩
      rw [hnear.same]
      rfl

theorem bind (name : String) {sym : Symbol}
    (hsym : ∀ slot func, sym = .var slot (some func) → func ∈ s.defined) :
    State.Twins odd used { s with symbols := (name, sym) :: s.symbols }
      { t with symbols := (name, sym) :: t.symbols } :=
  { h with
    owned x slot func hmem := by
      rcases List.mem_cons.mp hmem with heq | hmem
      · exact hsym slot func (Prod.mk.inj heq).2.symm
      · exact h.owned x slot func hmem
    symbols x hused := by
      unfold State.Agrees
      rw [symbol?_cons, symbol?_cons]
      by_cases hx : x = name
      · rw [if_pos hx, if_pos hx]
        exact .inl rfl
      · have hused : used x ∨ s.Owns x := by
          refine hused.imp_right fun ⟨slot, func, hvar, hframe⟩ => ⟨slot, func, ?_, hframe⟩
          rwa [symbol?_cons, if_neg hx] at hvar
        rw [if_neg hx, if_neg hx]
        exact (h.symbols x hused).imp_right fun ⟨hs, ht⟩ => ⟨hs.bind hx, ht.bind hx⟩
    near := h.near.imp_right fun hnear =>
      hnear.change (fun r => { r with symbols := (name, sym) :: r.symbols }) fun _ _ _ => rfl }

theorem addGlobal (x : IR.Global) :
    State.Twins odd used { s with module := s.module.addGlobal x }
      { t with module := t.module.addGlobal x } :=
  { h with
    globals := congrArg (· ++ [x]) h.globals
    near := h.near.imp_right fun hnear =>
      hnear.change (fun r => { r with module := r.module.addGlobal x }) fun _ _ _ => rfl }

/-- A function that was not there is added. -/
theorem addFunc (fn : Func) :
    State.Twins odd used { s with module := s.module.addFunc fn }
      { t with module := t.module.addFunc fn } :=
  { h with
    funcs name := by
      simp only [Module.func?_addFunc]
      rcases rel_cases (h.funcs name) with ⟨hs, ht⟩ | ⟨fn₁, fn₂, hs, ht, hsame⟩
      · rw [hs, ht, Option.none_or]
        split
        · exact .some (.refl fn)
        · exact .none
      · rw [hs, ht]
        exact .some hsame
    others name hname := by
      simp only [Module.func?_addFunc, h.others name hname]
    declared name hname hnone := by
      rw [Module.func?_addFunc, Option.or_eq_none_iff] at hnone
      exact h.declared name hname hnone.1
    near := h.near.imp_right fun hnear =>
      hnear.change (fun r => { r with module := r.module.addFunc fn }) fun _ _ _ => rfl }

/-- A function is changed in the same way in both. -/
theorem modifyFunc (name : String) {change : Func → Func}
    (hname : ∀ fn, (change fn).name = fn.name)
    (hchange : ∀ fn fn', SameType fn fn' → SameType (change fn) (change fn')) :
    State.Twins odd used { s with module := s.module.modifyFunc name change }
      { t with module := t.module.modifyFunc name change } :=
  { h with
    funcs other := by
      simp only [Module.func?_modifyFunc _ _ _ hname]
      split
      · rcases rel_cases (h.funcs other) with ⟨hs, ht⟩ | ⟨fn₁, fn₂, hs, ht, hsame⟩
        · rw [hs, ht]
          exact .none
        · rw [hs, ht]
          exact .some (hchange _ _ hsame)
      · exact h.funcs other
    others other hother := by
      simp only [Module.func?_modifyFunc _ _ _ hname, h.others other hother]
    declared other hother hnone := by
      rw [Module.func?_modifyFunc _ _ _ hname] at hnone
      split at hnone
      · exact h.declared other hother (Option.map_eq_none_iff.mp hnone)
      · exact h.declared other hother hnone
    near := h.near.imp_right fun hnear =>
      hnear.change (fun r => { r with module := r.module.modifyFunc name change })
        fun _ _ _ => rfl }

theorem setParams (name : String) (ps : List Param) :
    State.Twins odd used { s with module := s.module.modifyFunc name fun fn =>
      { fn with params := ps } }
      { t with module := t.module.modifyFunc name fun fn => { fn with params := ps } } :=
  h.modifyFunc name (fun _ => rfl) fun _ _ hsame => ⟨hsame.name, hsame.ret, rfl⟩

theorem setBlocks (name : String) (bs : List Block) :
    State.Twins odd used { s with module := s.module.modifyFunc name fun fn =>
      { fn with blocks := bs } }
      { t with module := t.module.modifyFunc name fun fn => { fn with blocks := bs } } :=
  h.modifyFunc name (fun _ => rfl) fun _ _ hsame => ⟨hsame.name, hsame.ret, hsame.params⟩

/-- The scope in which rejections are reported is the same. -/
theorem enter (name : String) :
    State.Twins odd used { s with scope := name } { t with scope := name } :=
  { h with
    scope := rfl
    near := h.near.imp_right fun hnear =>
      hnear.change (fun r => { r with scope := name }) fun _ _ _ => rfl }

/-- Outside functions, no variable of a function can be used. -/
theorem leave :
    State.Twins odd used { s with scope := "", frame := none }
      { t with scope := "", frame := none } :=
  { h with
    frame := rfl
    scope := rfl
    current := nofun
    symbols x hused := by
      have hides : ∀ r : State, r.Hides x →
          State.Hides { r with scope := "", frame := none } x := by
        intro r hr sym hsym
        obtain ⟨slot, func, hvar, hmem, -⟩ := hr sym hsym
        exact ⟨slot, func, hvar, hmem, nofun⟩
      rcases hused with hused | ⟨_, _, -, hframe⟩
      · exact (h.symbols x (.inl hused)).imp_right fun ⟨hs, ht⟩ => ⟨hides s hs, hides t ht⟩
      · cases hframe
    near := h.near.imp_right fun hnear =>
      hnear.change (fun r => { r with scope := "", frame := none }) fun _ _ _ => rfl }

/-- The definition of a function is begun that was not begun before, so it is none of those that
differ. -/
theorem define (hf : f.func ∉ s.defined)
    (hfn : s.module.func? f.func ≠ none) :
    State.Twins odd used { s with defined := f.func :: s.defined, frame := some f }
      { t with defined := f.func :: t.defined, frame := some f } :=
  { h with
    frame := rfl
    defined := congrArg (f.func :: ·) h.defined
    ended func hfunc := List.mem_cons_of_mem _ (h.ended func hfunc)
    declared name hname := by
      rcases List.mem_cons.mp hname with rfl | hname
      · exact hfn
      · exact h.declared name hname
    current := by
      rintro _ ⟨⟩
      exact List.mem_cons_self
    owned x slot func hmem := List.mem_cons_of_mem _ (h.owned x slot func hmem)
    symbols x hused := by
      have hides : ∀ r : State, f.func ∉ r.defined → r.Hides x →
          State.Hides { r with defined := f.func :: r.defined, frame := some f } x := by
        intro r hnew hr sym hsym
        obtain ⟨slot, func, hvar, hmem, -⟩ := hr sym hsym
        refine ⟨slot, func, hvar, List.mem_cons_of_mem _ hmem, ?_⟩
        rintro ⟨⟩
        exact hnew hmem
      rcases hused with hused | ⟨slot, func, hvar, hframe⟩
      · exact (h.symbols x (.inl hused)).imp_right fun ⟨hs, ht⟩ =>
          ⟨hides s hf hs, hides t (h.defined ▸ hf) ht⟩
      · -- the function has no variables yet
        obtain rfl := Option.some.inj hframe
        exact absurd (h.owned x slot _ (State.mem_symbols hvar)) hf
    near := h.near.imp_right fun hnear =>
      hnear.change (fun r => { r with defined := f.func :: r.defined, frame := some f })
        fun _ _ _ => rfl }

/-- Fewer names are compared. -/
theorem narrow (hused : ∀ x, used' x → used x) : s.Twins odd used' t :=
  { h with symbols := fun x hx => h.symbols x (hx.imp_left (hused x)) }

/-- More names are compared, about which the states agree. -/
theorem widen (hused : ∀ x, used' x → used x ∨ s.Agrees t x) : s.Twins odd used' t := by
  refine { h with symbols := fun x hx => ?_ }
  rcases hx with hx | hx
  · rcases hused x hx with hx | hagrees
    · exact h.symbols x (.inl hx)
    · exact hagrees
  · exact h.symbols x (.inr hx)

/-- A name that is used stands for the same thing in both states, unless nobody can use it. -/
theorem agrees {x : String} (hx : used x) :
    t.symbol? x = s.symbol? x ∨ odd.reports ∧ s.Hides x ∧ t.Hides x := by
  rcases h.near with hodd | hnear
  · exact (h.symbols x (.inl hx)).imp_right (.intro hodd)
  · rw [hnear.same]
    exact .inl rfl

/-- A function that may be used has one type in both. -/
theorem callee? {name : String} (hname : used name) :
    Option.Rel SameType (s.callee? name) (t.callee? name) := by
  rcases h.symbols name (.inl hname) with heq | ⟨hs, ht⟩
  · unfold State.callee?
    rw [heq]
    rcases s.symbol? name with _ | _ | ⟨slot, owner⟩
    · exact .none
    · exact h.funcs name
    · exact .none
  · -- nobody can use the name, so it stands for no function in either state
    have hnone : ∀ r : State, r.Hides name → r.callee? name = none := by
      intro r hr
      unfold State.callee?
      cases hsym : r.symbol? name with
      | none => rfl
      | some sym =>
        obtain ⟨slot, func, rfl, -⟩ := hr sym hsym
        rfl
    rw [hnone s hs, hnone t ht]
    exact .none

end State.Twins

/-! ## Steps

Two steps run beside each other: both go on with the same value from twins, or both stop. -/

/-- Both steps stop because the same thing is rejected, unless that does not matter, or with the
same fault. -/
def Stop.Alike (odd : Licence) : Stop → Stop → Prop
  | .rejected r, .rejected r' => odd.reports ∨ r.Near odd.near r'
  | .fault f, .fault f' => f = f'
  | _, _ => False

/-- From `s` and `t`, the steps succeed with the same result or stop together, and leave twins. -/
inductive Parallel (odd : Licence) (used : String → Prop) (x y : LowerM α) (s t : State) :
    Prop where
  | gives {a : α} {s' t' : State} (hx : Gives x s a s') (hy : Gives y t a t')
    (h : s'.Twins odd used t')
  | stops {e e' : Stop} {s' t' : State} (hx : Stops x s e s') (hy : Stops y t e' t')
    (he : e.Alike odd e')
    (h : s'.Twins odd used t')

namespace Parallel

variable {c : Cause}

theorem pure {a : α} (h : s.Twins odd used t) : Parallel odd used (pure a) (pure a) s t :=
  .gives (gives_pure.mpr ⟨rfl, rfl⟩) (gives_pure.mpr ⟨rfl, rfl⟩) h

theorem bind {x y : LowerM α} {k k' : α → LowerM β} (hxy : Parallel odd used x y s t)
    (hk : ∀ a s' t', Gives x s a s' → Gives y t a t' → s'.Twins odd used t' →
      Parallel odd used (k a) (k' a) s' t') : Parallel odd used (x >>= k) (y >>= k') s t := by
  cases hxy with
  | stops hx hy he h => exact .stops (stops_bind.mpr (.inl hx)) (stops_bind.mpr (.inl hy)) he h
  | gives hx hy h =>
    cases hk _ _ _ hx hy h with
    | gives hk hk' h => exact .gives (hx.bind_iff.mpr hk) (hy.bind_iff.mpr hk') h
    | stops hk hk' he h => exact .stops (hx.stops_bind_iff.mpr hk) (hy.stops_bind_iff.mpr hk') he h

/-- Two steps that succeed are taken, whatever their results. -/
theorem after {x y : LowerM α} {k k' : α → LowerM β} {a b : α} {s₁ t₁ : State} (hx : Gives x s a s₁)
    (hy : Gives y t b t₁) (hk : Parallel odd used (k a) (k' b) s₁ t₁) :
    Parallel odd used (x >>= k) (y >>= k') s t := by
  cases hk with
  | gives hk hk' h => exact .gives (hx.bind_iff.mpr hk) (hy.bind_iff.mpr hk') h
  | stops hk hk' he h => exact .stops (hx.stops_bind_iff.mpr hk) (hy.stops_bind_iff.mpr hk') he h

/-- Each step reads its own state. -/
theorem read {k k' : State → LowerM β} (hk : Parallel odd used (k s) (k' t) s t) :
    Parallel odd used (get >>= k) (get >>= k') s t :=
  after (gives_get.mpr ⟨rfl, rfl⟩) (gives_get.mpr ⟨rfl, rfl⟩) hk

theorem faulty {e : Fault} (h : s.Twins odd used t) :
    Parallel odd used (faulty e : LowerM α) (Lowering.faulty e) s t :=
  .stops (stops_throw.mpr ⟨rfl, rfl⟩) (stops_throw.mpr ⟨rfl, rfl⟩) rfl h

theorem reject {p p' : Option Place} (hp : Option.Rel (SamePlace odd.near) p p')
    (h : s.Twins odd used t) :
    Parallel odd used (reject c p : LowerM α) (Lowering.reject c p') s t :=
  read (.stops (stops_throw.mpr ⟨rfl, rfl⟩) (stops_throw.mpr ⟨rfl, rfl⟩)
    (.inr ⟨rfl, hp, h.scope⟩) h)

theorem rejectAt {n n' : Node} (hn : SamePlace odd.near n.place n'.place) (h : s.Twins odd used t) :
    Parallel odd used (rejectAt n c : LowerM α) (Lowering.rejectAt n' c) s t :=
  reject (.some hn) h

/-- A check that rejects, and what is done if it passes. -/
theorem check {c : Prop} [Decidable c] {cause : Cause} {p p' : Place} {k k' : Unit → LowerM α}
    (hp : SamePlace odd.near p p') (h : s.Twins odd used t)
    (hk : ¬c → Parallel odd used (k ()) (k' ()) s t) :
    Parallel odd used (if c then Lowering.reject cause (some p) >>= k else k ())
      (if c then Lowering.reject cause (some p') >>= k' else k' ()) s t := by
  split
  next => exact (reject (.some hp) h).bind fun _ _ _ hx _ _ => absurd hx gives_reject
  next hc => exact hk hc

theorem narrow {used' : String → Prop} {x y : LowerM α} (hxy : Parallel odd used x y s t)
    (hused : ∀ x, used' x → used x) : Parallel odd used' x y s t := by
  cases hxy with
  | gives hx hy h => exact .gives hx hy (h.narrow hused)
  | stops hx hy he h => exact .stops hx hy he (h.narrow hused)

end Parallel

/-! ## Primitive steps -/

section Steps

variable (h : s.Twins odd used t)

include h

/-- Both steps go on with the same frame. -/
theorem parallel_getFrame {k k' : Frame → LowerM β}
    (hk : ∀ f, s.frame = some f → Parallel odd used (k f) (k' f) s t) :
    Parallel odd used (getFrame >>= k) (getFrame >>= k') s t := by
  have hsame : Parallel odd used getFrame getFrame s t := by
    refine .read ?_
    rw [h.frame]
    cases s.frame with
    | none => exact .faulty h
    | some f => exact .pure h
  refine hsame.bind fun f s₁ t₁ hf hg _ => ?_
  obtain ⟨hf, rfl⟩ := gives_getFrame.mp hf
  obtain ⟨-, rfl⟩ := gives_getFrame.mp hg
  exact hk f hf

theorem parallel_setFrame (hf : s.frame = some f) (hfunc : g.func = f.func) :
    Parallel odd used (setFrame g) (setFrame g) s t :=
  .gives (gives_setFrame (u := ()).mpr rfl) (gives_setFrame.mpr rfl) (h.withFrame hf hfunc)

theorem parallel_isOpen : Parallel odd used isOpen isOpen s t := by
  refine .gives (gives_isOpen.mpr ⟨rfl, rfl⟩) (gives_isOpen.mpr ⟨?_, rfl⟩) h
  rw [h.frame]

theorem parallel_inFunction : Parallel odd used inFunction inFunction s t := by
  refine .gives (gives_inFunction.mpr ⟨rfl, rfl⟩) (gives_inFunction.mpr ⟨?_, rfl⟩) h
  rw [h.frame]

theorem parallel_warn {pos pos' : Option Pos} {c : WarningCause}
    (hpos : Option.Rel odd.near pos pos') :
    Parallel odd used (warn pos c) (warn pos' c) s t := by
  refine .gives (gives_warn (u := ()).mpr rfl) (gives_warn.mpr rfl) (h.reports ?_)
  exact h.near.imp_right fun hnear =>
    ⟨List.rel_append hnear.warnings (.cons ⟨rfl, hpos⟩ .nil), hnear.rejections⟩

theorem parallel_bindSymbol (hsym : ∀ slot func, sym = .var slot (some func) → func ∈ s.defined) :
    Parallel odd used (bindSymbol name sym) (bindSymbol name sym) s t :=
  .gives (gives_bindSymbol (u := ()).mpr rfl) (gives_bindSymbol.mpr rfl) (h.bind name hsym)

theorem parallel_freshName : Parallel odd used (freshName base) (freshName base) s t :=
  parallel_getFrame h fun _ hf => .bind (parallel_setFrame h hf rfl) fun _ _ _ _ _ h => .pure h

theorem parallel_newBlock : Parallel odd used (newBlock base) (newBlock base) s t := by
  refine (parallel_freshName h).bind fun label _ _ _ _ h => ?_
  exact parallel_getFrame h fun _ hf => .bind (parallel_setFrame h hf rfl)
    fun _ _ _ _ _ h => .pure h

theorem parallel_moveTo {cursor : Option Nat} :
    Parallel odd used (moveTo cursor) (moveTo cursor) s t :=
  parallel_getFrame h fun _ hf => parallel_setFrame h hf rfl

theorem parallel_getOpenBlock : Parallel odd used getOpenBlock getOpenBlock s t := by
  refine parallel_getFrame h fun f _ => ?_
  rcases f.current? with _ | ⟨i, b⟩
  · exact .faulty h
  · dsimp only
    split
    next => exact .faulty h
    next => exact .pure h

theorem parallel_emit {op : Op} : Parallel odd used (emit op) (emit op) s t := by
  refine (parallel_getOpenBlock h).bind fun p _ _ _ _ h => ?_
  exact parallel_getFrame h fun _ hf => .bind (parallel_setFrame h hf rfl)
    fun _ _ _ _ _ h => .pure h

theorem parallel_close {e : Term} : Parallel odd used (close e) (close e) s t := by
  refine (parallel_getOpenBlock h).bind fun p _ _ _ _ h => ?_
  exact parallel_getFrame h fun _ hf => parallel_setFrame h hf rfl

theorem parallel_newSlot {elem : Ty} {align : Nat} :
    Parallel odd used (newSlot name elem align) (newSlot name elem align) s t :=
  (parallel_freshName h).bind fun _ _ _ _ _ h => parallel_emit h

theorem parallel_load {x : Value} : Parallel odd used (load x) (load x) s t := by
  unfold load
  cases x.ty.pointee? with
  | none => exact .pure h
  | some elem => exact parallel_emit h

end Steps

theorem parallel_coerce {x : Value} {want : Ty}
    (hn : SamePlace odd.near n.place n'.place) (h : s.Twins odd used t) :
    Parallel odd used (coerce n x want) (coerce n' x want) s t := by
  unfold coerce
  split
  next => exact .pure h
  next =>
    split
    next => exact .rejectAt hn h
    next =>
      split
      next => exact parallel_emit h
      next =>
        split
        next => exact parallel_emit h
        next => exact .rejectAt hn h

/-- A name that nobody can use is rejected. -/
theorem State.Hides.stops_resolve (h : s.Hides x) (n : Node) :
    ∃ r, Stops (resolve n [x]) s (.rejected r) s := by
  unfold resolve
  simp only [Tree.singleName?, (gives_get.mpr ⟨rfl, rfl⟩).stops_bind_iff]
  cases hsym : s.symbol? x with
  | none => exact ⟨_, stops_throw.mpr ⟨rfl, rfl⟩⟩
  | some sym =>
    obtain ⟨slot, func, rfl, -, hother⟩ := h sym hsym
    dsimp only
    rw [if_neg hother]
    exact ⟨_, stops_throw.mpr ⟨rfl, rfl⟩⟩

/-- A name is resolved to the same slot or rejected in both states; one that nobody can use is
rejected. -/
theorem parallel_resolve {names : List String} (hn : SamePlace odd.near n.place n'.place)
    (hnames : ∀ x ∈ names, used x) (h : s.Twins odd used t) :
    Parallel odd used (resolve n names) (resolve n' names) s t := by
  cases hname : Tree.singleName? names with
  | none =>
    unfold resolve
    rw [hname]
    exact .rejectAt hn h
  | some x =>
    obtain rfl := singleName?_eq_some.mp hname
    rcases h.agrees (hnames x List.mem_cons_self) with heq | ⟨hodd, hs, ht⟩
    · refine .read ?_
      rw [heq, h.frame]
      rcases s.symbol? x with _ | _ | ⟨slot, owner⟩
      · exact .rejectAt hn h
      · exact .rejectAt hn h
      · cases owner with
        | none => exact .pure h
        | some owner =>
          dsimp only
          split
          next => exact .pure h
          next => exact .rejectAt hn h
    · obtain ⟨r, hr⟩ := hs.stops_resolve n
      obtain ⟨r', hr'⟩ := ht.stops_resolve n'
      exact .stops hr hr' (.inl hodd) h

theorem parallel_visitLeaf {form : Leaf} (hn : SamePlace odd.near n.place n'.place)
    (hform : ∀ x ∈ form.mentioned, used x) (h : s.Twins odd used t) :
    Parallel odd used (visitLeaf n form) (visitLeaf n' form) s t := by
  cases form with
  | intConst value => exact .pure h
  | strConst contents => exact .rejectAt hn h
  | identifier name => exact .rejectAt hn h
  | names names stars => exact (parallel_resolve hn hform h).bind fun _ _ _ _ _ h => .pure h
  | type tag isConst => exact .rejectAt hn h

end CSubset.Lowering
