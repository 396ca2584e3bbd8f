import CSubset.Proofs.ControlFlow.Bodies
import CSubset.Proofs.Lowering.Program
import CSubset.Proofs.Lowering.Stops

/-!
# Members of a program, lowered or not

Lowering a member of a program ends in one of two ways that leave a state: the member is accepted,
which `State.Item` describes, or it is rejected (`State.Refuses`). A rejected member has only led to
warnings, unless it is a definition whose body was begun: then the function stays declared, without
the body, and the variables of the body stay bound.

The states between two members, over any number of programs that are lowered one after the other,
are those of `State.Reached`; each of them is steady. Main statements: `gives_member`,
`State.Reached.ind`.
-/

namespace CSubset.Lowering

open IR (Ty Value Op Term Block Func Param Module)

variable {lacks : Prop} {s s' t : State} {n : Node} {u : Unit} {e : Stop} {name sourceName : String}
  {items : List (Option Node)} {fn : Func} {step : LowerM Unit} {P motive : State → Prop}
  {m : Module} {stamp : Stamp}

/-! ## Rejected members

What a member may have done before it is given up. -/

/-- Member `n` is a definition whose body will be begun: it declares function `name` with this
signature, which leaves module `m`. -/
def State.Begins (s : State) (n : Node) (name : String) (sig : Signature) (m : Module) : Prop :=
  ∃ stamp place ret params body,
    n = .ternary stamp .definition ret (some (.unary place (.signature name) params)) (some body) ∧
    Signature.ofNodes? ret params = some sig ∧ s.module.hasGlobal name = false ∧
    DeclaresFunction s.defined name sig true s.module m

/-- Outside functions, lowering member `n` may be given up in state `s'`. -/
inductive State.Refuses (s : State) : Node → State → Prop where
  | early {n : Node} (ws : List Warning) (h : ∀ name sig m, ¬s.Begins n name sig m) :
    s.Refuses n (s.warned ws)
  | body {stamp place : Stamp} {ret params : Option Node} {name : String} {body : Node}
    {sig : Signature} {m : Module}
    {fn : Func} {t : State} (hsig : Signature.ofNodes? ret params = some sig)
      (hglobal : s.module.hasGlobal name = false)
    (hdecl : DeclaresFunction s.defined name sig true s.module m) (hfn : m.func? name = some fn)
    (hkeeps : (({ s with scope := name }.declareFunction name sig m).opened name fn).Keeps name t) :
    s.Refuses
      (.ternary stamp .definition ret (some (.unary place (.signature name) params)) (some body))
      { t with scope := "", frame := none }

theorem StopsIn.mono {α : Type} {Q : State → Prop} {x : LowerM α} (hx : StopsIn lacks P x s)
    (hPQ : ∀ t, P t → Q t) : StopsIn lacks Q x s :=
  fun e s' h => ⟨(hx e s' h).1, hPQ s' (hx e s' h).2⟩

theorem stops_insideFunction :
    Stops (insideFunction name step) s e s' ↔
      ∃ t, Stops step { s with scope := name } e t ∧
        s' = { t with scope := "", frame := none } := by
  have hrun : insideFunction name step s =
      ((step { s with scope := name }).1,
        { (step { s with scope := name }).2 with scope := "", frame := none }) :=
    rfl
  unfold Stops
  rw [hrun]
  constructor
  · intro h
    obtain ⟨hresult, rfl⟩ := Prod.mk.inj h
    exact ⟨_, Prod.ext hresult rfl, rfl⟩
  · rintro ⟨t, h, rfl⟩
    rw [h]

theorem stopsIn_insideFunction
    (hstep : StopsIn lacks (fun t => P { t with scope := "", frame := none }) step
      { s with scope := name }) : StopsIn lacks P (insideFunction name step) s := by
  intro e s' h
  obtain ⟨t, ht, rfl⟩ := stops_insideFunction.mp h
  exact hstep e t ht

/-- The steps of a definition, in the function. -/
theorem stopsIn_define {place : Stamp} {ret params : Option Node} {body : Node}
    (hwhole : lacks ∨
      Node.Whole
      (.ternary stamp .definition ret (some (.unary place (.signature name) params)) (some body)))
    (hframe : s.frame = none) (hscope : s.scope = "") :
    StopsIn lacks
      (s.Refuses
        (.ternary stamp .definition ret (some (.unary place (.signature name) params)) (some body)))
      (insideFunction name do
        let ps ← declareFunction ret ⟨.signature, place.pos⟩ name params true
        openBody name ps
        visitBody (some body)
        closeBody (.ternary stamp .definition ret (some (.unary place (.signature name) params))
          (some body))) s := by
  refine stopsIn_insideFunction ?_
  by_cases hbegins : ∃ sig m, Signature.ofNodes? ret params = some sig ∧
    s.module.hasGlobal name = false ∧ DeclaresFunction s.defined name sig true s.module m
  · obtain ⟨sig, m, hsig, hglobal, hm⟩ := hbegins
    refine .after (gives_declareFunction.mpr ⟨sig, m, hsig, rfl, hglobal, hm, rfl⟩) ?_
    obtain ⟨-, fn, hfn, -⟩ := hm.func?
    obtain ⟨names, label, hlabel, hopened⟩ :=
      State.opened_frame ({ s with scope := name }.declareFunction name sig m) name fn
    -- the first block is open, so the parameters can be stored and the body is begun
    obtain ⟨t₂, hstored⟩ : ∃ t₂, Gives (storeParams name 0 sig.params)
        (({ s with scope := name }.declareFunction name sig m).opened name fn) () t₂ :=
      gives_storeParams_of_open hopened rfl
    obtain ⟨g, hg⟩ := within_of_gives_storeParams hstored hopened rfl
    have hitems : lacks ∨ ∀ n, some n ∈ bodyItems body → n.Whole := by
      refine hwhole.imp_right fun h => ?_
      have hbody := h.children.2.2 body rfl
      unfold bodyItems
      split
      next => exact hbody.items
      next => exact nofun
    have hall : ∀ n ∈ bodyItems body, Halts lacks n := by
      rintro _ hmem m rfl
      exact stopsIn_visit m (hitems.imp_right fun h => h m hmem) m rfl
    refine .after (gives_openBody.mpr ⟨fn, hfn, hstored⟩) ?_
    rw [visitBody_some]
    refine ((stopsIn_visitStatements hall hg).mono fun t ht => .body hsig hglobal hm hfn ht).bind
      fun _ t₃ hitems => ?_
    obtain ⟨k, hk⟩ :=
      within_of_gives_visitStatements (fun _ _ m _ => within_of_gives_visit m m rfl) hitems hg.frame
    have hflow := sound_of_lowered hopened rfl hlabel rfl hstored hitems hk.frame
    exact stopsIn_closeBody hk.frame (.body hsig hglobal hm hfn (hg.trans hk).keeps)
      hflow.defect?_eq_none
  · have hparams : lacks ∨ ∀ n, params = some n → n.Whole := by
      refine hwhole.imp_right fun h n hn => ?_
      exact (h.children.2.1 _ rfl).child hn
    refine (stopsIn_declareFunction (fun ws => ?_) hparams).bind fun ps t₁ hdecl => ?_
    · have hwarned : { ({ s with scope := name } : State).warned ws with
          scope := "", frame := none } = s.warned ws := by
        rw [State.warned, State.warned, ← hframe, ← hscope]
      rw [hwarned]
      refine .early ws ?_
      rintro _ sig m ⟨_, _, _, _, _, heq, hsig, hglobal, hm⟩
      cases heq
      exact hbegins ⟨sig, m, hsig, hglobal, hm⟩
    · obtain ⟨sig, m, hsig, -, hglobal, hm, -⟩ := gives_declareFunction.mp hdecl
      exact absurd ⟨sig, m, hsig, hglobal, hm⟩ hbegins

/-- A member of a program that is not accepted is rejected for an ordinary reason, or lacks a
child. -/
theorem stopsIn_visitItem_of_whole (hn : lacks ∨ n.Whole) (hframe : s.frame = none)
    (hscope : s.scope = "") : StopsIn lacks (s.Refuses n) (visitItem n) s := by
  have hopen : ∀ g, s.frame = some g → g.isOpen = true := by simp [hframe]
  -- a member that is no definition with all its parts is given up early
  have hearly : (∀ stamp place ret params name body, n ≠ .ternary stamp .definition ret
      (some (.unary place (.signature name) params)) (some body)) →
      ∀ ws, s.Refuses n (s.warned ws) := by
    intro hparts ws
    refine .early ws ?_
    rintro name sig m ⟨stamp, place, ret, params, body, heq, -⟩
    exact hparts stamp place ret params name body heq
  have hstay : (∀ ws, s.Refuses n (s.warned ws)) → s.Refuses n s := fun h => by simpa using h []
  have houtside : ∀ {c : Cause} {k : Unit → LowerM (Option Value)}, StopsIn lacks
    (s.Refuses n) (k ()) s →
      StopsIn lacks (s.Refuses n) (do
        let inside ← inFunction
        if inside then rejectAt n c >>= k else k ()) s := by
    intro c k hk
    refine .after (gives_inFunction.mpr ⟨rfl, rfl⟩) ?_
    rw [hframe, Option.isSome_none, if_neg Bool.false_ne_true]
    exact hk
  suffices hvisit : n.kind = .definition ∨ n.kind = .forward ∨ n.kind = .declaration →
      StopsIn lacks (s.Refuses n) (visit n) s by
    unfold visitItem
    split
    next h => exact (hvisit (.inl h)).bind fun _ _ _ => .pure
    next h => exact (hvisit (.inr (.inl h))).bind fun _ _ _ => .pure
    next h => exact (hvisit (.inr (.inr h))).bind fun _ _ _ => .pure
    next h _ _ =>
      refine .rejectAt (hstay (hearly ?_)) rfl
      rintro _ _ _ _ _ _ rfl
      exact h rfl
  intro hkind
  rcases eq_of_member hkind with ⟨stamp, left, right, rfl⟩ | ⟨stamp, left, right, rfl⟩ |
    ⟨stamp, first, second, third, rfl⟩
  · rw [visit]
    exact (stopsIn_declareVariable (hearly (by simp)) hopen).bind fun _ _ _ => .pure
  · have hwarned := hearly (by simp)
    rw [visit.eq_def]
    dsimp only
    split
    next =>
      refine houtside ((stopsIn_declareFunction hwarned ?_).bind fun _ _ _ => .pure)
      exact hn.imp_right fun h m hm => (h.right rfl).child hm
    next => exact (stopsIn_declareVariable hwarned hopen).bind fun _ _ _ => .pure
    next => exact .rejectAt (hstay hwarned) rfl
    next => exact .missing (hstay hwarned) (hn.elim id fun h => absurd rfl h.here)
    next => exact .rejectAt (hstay hwarned) rfl
  · rw [visit.eq_def]
    refine houtside ?_
    dsimp only
    split
    next place name params hbody =>
      obtain ⟨body, rfl⟩ := Option.isSome_iff_exists.mp hbody
      exact (stopsIn_define hn hframe hscope).bind fun _ _ _ => .pure
    next hparts =>
      refine .rejectAt (hstay (hearly ?_)) rfl
      rintro _ _ _ _ _ _ ⟨⟩
      exact hparts _ _ _ rfl rfl

theorem stopsIn_visitItem (hframe : s.frame = none) (hscope : s.scope = "") :
    StopsIn True (s.Refuses n) (visitItem n) s :=
  stopsIn_visitItem_of_whole (.inl trivial) hframe hscope

/-- The functions once the body of a declared one has been begun: only its parameters have other
names. -/
theorem DeclaresFunction.opened {defined : List String} {sig : Signature} {isDef : Bool}
    {m' : Module} (h : DeclaresFunction defined name sig isDef m m') (hfn : m'.func? name = some fn)
    (ht : t.module = m') :
    (∀ other, other ≠ name → (t.opened name fn).module.func? other = m.func? other) ∧
      ∃ fn', (t.opened name fn).module.func? name = some fn' ∧ fn'.ret = sig.ret ∧
        fn'.params.map (·.ty) = sig.params.map (·.ty) ∧
          fn'.blocks = ((m.func? name).map (·.blocks)).getD [] ∧
        ∀ fn₀, m.func? name = some fn₀ → fn'.ret = fn₀.ret ∧
          fn'.params.map (·.ty) = fn₀.params.map (·.ty) := by
  subst ht
  obtain ⟨hothers, fn', hfn', hret, htypes, hblocks, hold⟩ := h.func?
  obtain rfl := Option.mem_unique hfn hfn'
  let renamed := (Frame.renameParams ⟨name, fn.ret, [], none, [], 0⟩ fn.params).1
  have hrenamed : renamed.map (·.ty) = fn.params.map (·.ty) := Frame.renameParams_ty _ _
  have hopened : ∀ other, (t.opened name fn).module.func? other =
      if other = name then (t.module.func? other).map fun fn => { fn with params := renamed }
      else t.module.func? other := fun other => t.module.func?_setParams name renamed other
  refine ⟨?_, { fn with params := renamed }, ?_, hret, hrenamed.trans htypes, hblocks, ?_⟩
  · intro other hother
    rw [hopened, if_neg hother, hothers other hother]
  · rw [hopened, if_pos rfl, hfn, Option.map_some]
  · intro fn₀ hfn₀
    exact ⟨(hold fn₀ hfn₀).1, hrenamed.trans (hold fn₀ hfn₀).2⟩

/-- Function `fn'` is `fn` but for the names of the parameters. -/
structure SameCode (fn fn' : Func) : Prop where
  ret : fn'.ret = fn.ret
  params : fn'.params.map (·.ty) = fn.params.map (·.ty)
  blocks : fn'.blocks = fn.blocks

theorem SameCode.refl (fn : Func) : SameCode fn fn := ⟨rfl, rfl, rfl⟩

/-- Where a function of a declaration was declared before, its code is the same. -/
theorem sameCode_or_empty (hblocks : fn.blocks = ((m.func? name).map (·.blocks)).getD [])
    (hold : ∀ fn₀, m.func? name = some fn₀ → fn.ret = fn₀.ret ∧
      fn.params.map (·.ty) = fn₀.params.map (·.ty)) :
    (∃ fn₀, m.func? name = some fn₀ ∧ SameCode fn₀ fn) ∨ fn.blocks = [] := by
  cases hfn₀ : m.func? name with
  | none => exact .inr (by simpa [hfn₀] using hblocks)
  | some fn₀ =>
    exact .inl ⟨fn₀, rfl, (hold fn₀ hfn₀).1, (hold fn₀ hfn₀).2, by simpa [hfn₀] using hblocks⟩

/-- A member that is rejected leaves no body under construction either. -/
theorem State.Refuses.steady (hs : s.Steady) (h : s.Refuses n s') : s'.Steady ∧ s.Later s' := by
  cases h with
  | early ws hnot => exact hs.same hs.frame hs.scope (fun _ => rfl) rfl (fun _ h => h) hs.owned
  | @body _ _ _ _ name _ sig m fn t hsig hglobal hdecl hfn hkeeps =>
    obtain ⟨hothers, fn', hfn', hret, htypes, -, hold⟩ :=
      hdecl.opened hfn (t := { s with scope := name }.declareFunction name sig m) rfl
    obtain ⟨hsigParams, hsigRet⟩ := Signature.types hsig
    rw [← hkeeps.module] at hothers hfn'
    have hdefined : t.defined = name :: s.defined := hkeeps.defined
    refine hs.change rfl rfl hothers hfn' (hdecl.not_mem_defined hs) hold
      (types_eq_of_map_eq htypes hsigParams)
      (hret ▸ hsigRet) (.inl hdefined) ?_ ?_
    · intro x
      show t.module.hasGlobal x = s.module.hasGlobal x
      rw [hkeeps.module]
      exact hdecl.hasGlobal x
    · intro x slot owner hmem
      obtain ⟨new, hnew, hown⟩ := hkeeps.symbols
      have hmem : (x, Symbol.var slot owner) ∈ new ++ (name, .func) :: s.symbols := hnew ▸ hmem
      rcases List.mem_append.mp hmem with hmem | hmem
      · -- a variable of the body that was given up
        obtain ⟨slot', hslot⟩ := hown _ hmem
        obtain ⟨-, rfl⟩ := Symbol.var.inj hslot
        exact .inr ⟨name, hdefined ▸ List.mem_cons_self, rfl⟩
      · exact .inl (by simpa using hmem)

theorem State.Refuses.found (hs : s.module.Found) (h : s.Refuses n s') : s'.module.Found := by
  cases h with
  | early ws hnot => exact hs
  | body hsig hglobal hdecl hfn hkeeps =>
    show Module.Found _
    rw [hkeeps.module]
    exact (hdecl.found hs).modifyFunc _ fun _ => rfl

theorem State.Refuses.rejections (h : s.Refuses n s') : s'.rejections = s.rejections := by
  cases h with
  | early ws hnot => rfl
  | body hsig hglobal hdecl hfn hkeeps => exact hkeeps.rejections

/-- A rejected member leaves the code of every function as it was. -/
theorem State.Refuses.func? (h : s.Refuses n s') (hfn : s'.module.func? name = some fn) :
    (∃ fn₀, s.module.func? name = some fn₀ ∧ SameCode fn₀ fn) ∨ fn.blocks = [] := by
  cases h with
  | early ws hnot => exact .inl ⟨fn, hfn, .refl fn⟩
  | @body _ _ _ _ name' _ sig m fn₁ t hsig hglobal hdecl hfn₁ hkeeps =>
    obtain ⟨hothers, fn', hfn', -, -, hblocks, hold⟩ :=
      hdecl.opened hfn₁ (t := { s with scope := name' }.declareFunction name' sig m) rfl
    rw [← hkeeps.module] at hothers hfn'
    by_cases hname : name = name'
    · subst hname
      obtain rfl := Option.mem_unique hfn hfn'
      exact sameCode_or_empty hblocks hold
    · exact .inl ⟨fn, (hothers name hname).symm.trans hfn, .refl fn⟩

/-! ## Members -/

/-- Outside functions, lowering a member leaves `s'`, and a rejection is kept for the report. -/
inductive State.Member (s : State) (n : Node) : State → Prop where
  | accepted {s' : State} (h : s.Item n s') : s.Member n s'
  | refused {r : Rejection} {t : State} (hr : ∀ d, r.cause ≠ .flow d) (h : s.Refuses n t) :
    s.Member n { t with rejections := t.rejections ++ [r] }

theorem gives_member (hframe : s.frame = none) (hscope : s.scope = "")
    (h : Gives (recording (visitItem n)) s u s') : s.Member n s' := by
  rcases gives_recording.mp h with h | ⟨r, t, hstops, rfl⟩
  · obtain ⟨hkind, v, hv⟩ := gives_visitItem.mp h
    exact .accepted ((gives_visit_item hframe hkind).mp hv).1
  · obtain ⟨hr, hrefuses⟩ := stopsIn_visitItem hframe hscope _ t hstops
    exact .refused hr hrefuses

theorem State.Member.steady (hs : s.Steady) (h : s.Member n s') : s'.Steady ∧ s.Later s' := by
  cases h with
  | accepted h => exact h.steady hs
  | refused hr h =>
    obtain ⟨ht, hlater⟩ := h.steady hs
    exact ⟨⟨ht.frame, ht.scope, ht.params, ht.ret, ht.bodiless, ht.declared, ht.owned⟩,
      ⟨hlater.funcs, hlater.defined, hlater.globals⟩⟩

theorem State.Member.found (hs : s.module.Found) (h : s.Member n s') : s'.module.Found := by
  cases h with
  | accepted h => exact h.found hs
  | refused hr h =>
    have hfound := h.found hs
    exact hfound

/-- Where the functions behind a member come from: they were there, they have no code, or the member
defines them. -/
theorem State.Member.func? (hs : s.Steady) (h : s.Member n s')
    (hfn : s'.module.func? name = some fn) :
    (∃ fn₀, s.module.func? name = some fn₀ ∧ SameCode fn₀ fn) ∨ fn.blocks = [] ∨
      ∃ ps items t t₁ t₂ f g, (∀ p ∈ ps, p.ty = Ty.i32) ∧
        Body name ps items s'.module fn t t₁ t₂ f g := by
  cases h with
  | refused hr h =>
    rcases h.func? hfn with hold | hempty
    · exact .inl hold
    · exact .inr (.inl hempty)
  | accepted h =>
    cases h with
    | @global _ _ _ _ x hform hx hfunc =>
      exact .inl ⟨fn, (s.func?_declareGlobal x name).symm.trans hfn, .refl fn⟩
    | @prototype _ _ _ _ name' sig m hsig hglobal hdecl =>
      obtain ⟨hothers, fn', hfn', -, -, hblocks, hold⟩ := hdecl.func?
      by_cases hname : name = name'
      · subst hname
        obtain rfl := Option.mem_unique hfn hfn'
        exact (sameCode_or_empty hblocks hold).imp_right .inl
      · exact .inl ⟨fn, (hothers name hname).symm.trans hfn, .refl fn⟩
    | @definition _ _ _ _ name' _ _ hdef =>
      obtain ⟨-, -, -, hothers, sig, fn', t, t₁, t₂, f, g, hsig, hfn', hbody, -⟩ := hdef.body hs
      by_cases hname : name = name'
      · subst hname
        obtain rfl := Option.mem_unique hfn hfn'
        exact .inr (.inr ⟨_, _, t, t₁, t₂, f, g, (Signature.types hsig).1, hbody⟩)
      · exact .inl ⟨fn, (hothers name hname).symm.trans hfn, .refl fn⟩

/-- A rejected member adds no global variable, an accepted one at most one. -/
theorem State.Member.globals (h : s.Member n s') :
    s'.module.globals = s.module.globals ∨ ∃ x, s'.module.globals = s.module.globals ++
      [⟨x, .i32⟩] := by
  cases h with
  | refused hr h =>
    cases h with
    | early ws hnot => exact .inl rfl
    | body hsig hglobal hdecl hfn hkeeps =>
      refine .inl ?_
      show Module.globals _ = _
      rw [hkeeps.module]
      exact hdecl.globals
  | accepted h =>
    cases h with
    | @global _ _ _ _ x hform hx hfunc =>
      unfold State.declareGlobal
      dsimp only
      split
      · exact .inl rfl
      · exact .inr ⟨x.name, rfl⟩
    | prototype hsig hglobal hdecl => exact .inl hdecl.globals
    | definition hdef =>
      obtain ⟨sig, m, fn, t₁, t₂, g, -, -, hdecl, -, hparams, hitems, hg, -, -, rfl⟩ := hdef
      obtain ⟨_, _, -, hframe⟩ := State.opened_frame _ _ fn
      obtain ⟨k, hk, hkg⟩ := State.within_body hframe rfl hparams hitems hg
      refine .inl ?_
      show t₂.module.globals = _
      rw [(hk.trans hkg).module]
      exact hdecl.globals

/-- Where the variables of functions behind a member come from: they were there, they belong to a
function without code, or they were bound in the body that the member defines. -/
theorem State.Member.symbols (hs : s.Steady) (h : s.Member n s') {x func : String} {slot : Value}
    (hmem : (x, .var slot (some func)) ∈ s'.symbols) :
    (x, .var slot (some func)) ∈ s.symbols ∨
      (∃ fn, s'.module.func? func = some fn ∧ fn.blocks = []) ∨
      ∃ ps items fn t t₁ t₂ f g, (∀ p ∈ ps, p.ty = Ty.i32) ∧ s'.module.func? func = some fn ∧
        Body func ps items s'.module fn t t₁ t₂ f g ∧ (x, .var slot (some func)) ∈ t₂.symbols := by
  cases h with
  | refused hr h =>
    cases h with
    | early ws hnot => exact .inl hmem
    | @body _ _ _ _ name _ sig m fn t hsig hglobal hdecl hfn hkeeps =>
      obtain ⟨new, hnew, hown⟩ := hkeeps.symbols
      have hmem : (x, Symbol.var slot (some func)) ∈ new ++ (name, .func) :: s.symbols :=
        hnew ▸ hmem
      rcases List.mem_append.mp hmem with hmem | hmem
      · -- the function had no code before, and the body was given up
        obtain ⟨slot', hslot⟩ := hown _ hmem
        obtain ⟨-, hfunc⟩ := Symbol.var.inj hslot
        obtain rfl := Option.some.inj hfunc
        obtain ⟨-, fn', hfn', -, -, hblocks, -⟩ :=
          hdecl.opened hfn (t := { s with scope := func }.declareFunction func sig m) rfl
        rw [← hkeeps.module] at hfn'
        refine .inr (.inl ⟨fn', hfn', hblocks.trans ?_⟩)
        cases hold : s.module.func? func with
        | none => rfl
        | some fn₀ => exact hs.bodiless func fn₀ hold (hdecl.not_mem_defined hs)
      · exact .inl (by simpa using hmem)
  | accepted h =>
    cases h with
    | global hform hx hfunc => exact .inl (by simpa [State.declareGlobal] using hmem)
    | prototype hsig hglobal hdecl => exact .inl (by simpa [State.declareFunction] using hmem)
    | definition hdef =>
      obtain ⟨-, -, -, -, sig, fn, t, t₁, t₂, f, g, hsig, hfn, hbody, hstart, hend⟩ := hdef.body hs
      rw [hend] at hmem
      rcases hbody.owned_end hmem with hold | howner
      · rw [hstart] at hold
        exact .inl (by simpa using hold)
      · obtain rfl := Option.some.inj howner
        exact .inr (.inr ⟨_, _, fn, t, t₁, t₂, f, g, (Signature.types hsig).1, hfn, hbody, hmem⟩)

/-! ## States between members -/

/-- States between two members of a program. Each call starts without warnings and lowers members
one after the other; it may be followed by further calls. -/
inductive State.Reached (sourceName : String) : State → Prop where
  | start : State.Reached sourceName (State.start sourceName)
  | call {s s' : State} {items : List (Option Node)} (hs : State.Reached sourceName s)
    (h : Gives (visitTopLevel items) { s with warnings := [] } () s') : State.Reached sourceName s'

theorem State.Steady.cleared (hs : s.Steady) : State.Steady { s with warnings := [] } :=
  ⟨hs.frame, hs.scope, hs.params, hs.ret, hs.bodiless, hs.declared, hs.owned⟩

/-- What every member preserves holds behind a list of members. -/
theorem invariant_of_gives_visitTopLevel
    (member : ∀ s n s', s.Steady → motive s → State.Member s n s' → motive s') (hs : s.Steady)
    (hmotive : motive s) (h : Gives (visitTopLevel items) s u s') : s'.Steady ∧ motive s' := by
  induction items generalizing s with
  | nil =>
    obtain rfl := gives_visitTopLevel_nil.mp h
    exact ⟨hs, hmotive⟩
  | cons n items ih =>
    cases n with
    | none => simp [visitTopLevel] at h
    | some n =>
      rw [visitTopLevel_some, gives_bind] at h
      obtain ⟨_, s₁, hitem, hrest⟩ := h
      have hmember := gives_member hs.frame hs.scope hitem
      exact ih (hmember.steady hs).1 (member s n s₁ hs hmotive hmember) hrest

/-- What holds of the empty module and is preserved by every member holds of every state that can be
reached. -/
theorem State.Reached.ind (start : motive (State.start sourceName))
    (clear : ∀ s : State, motive s → motive { s with warnings := [] })
    (member : ∀ s n s', s.Steady → motive s → State.Member s n s' → motive s')
    (hs : State.Reached sourceName s) : s.Steady ∧ motive s := by
  induction hs with
  | start => exact ⟨(State.sound_start sourceName).toSteady, start⟩
  | call _ h ih => exact invariant_of_gives_visitTopLevel member ih.1.cleared (clear _ ih.2) h

theorem State.Reached.steady (hs : State.Reached sourceName s) : s.Steady :=
  (hs.ind trivial (fun _ _ => trivial) fun _ _ _ _ _ _ => trivial).1

theorem State.Reached.found (hs : State.Reached sourceName s) : s.module.Found := by
  refine (hs.ind (motive := fun s => s.module.Found) ?_ (fun _ h => h) fun _ _ _ _ h hmember =>
    hmember.found h).2
  simp [Module.Found, State.start]

/-- A rejection is recorded, so a recorded step stops with a fault. -/
theorem stops_recording :
    Stops (recording step) s e s' ↔ ∃ f, e = .fault f ∧ Stops step s (.fault f) s' := by
  unfold Stops
  rw [recording_eq]
  rcases (step s : Except Stop Unit × State) with ⟨(r | f) | a, t⟩
  · simp [afterRecording]
  · simp only [afterRecording, Prod.mk.injEq, Except.error.injEq, Stop.fault.injEq]
    constructor
    · rintro ⟨rfl, rfl⟩
      exact ⟨f, rfl, rfl, rfl⟩
    · rintro ⟨_, rfl, rfl, rfl⟩
      exact ⟨rfl, rfl⟩
  · simp [afterRecording]

theorem stops_visit_program (hframe : s.frame = none) :
    Stops (visit (.seq stamp .program items)) s e s' ↔ Stops (visitTopLevel items) s e s' := by
  have hinside : Gives inFunction s false s := by
    rw [gives_inFunction, hframe]
    exact ⟨rfl, rfl⟩
  rw [visit, hinside.stops_bind_iff]
  simp

/-- A list of members ends well, or a node is missing. -/
theorem missing_of_stops_visitTopLevel (hs : s.Steady)
    (h : Stops (visitTopLevel items) s e s') : e = .fault .missingNode := by
  induction items generalizing s with
  | nil =>
    rw [visitTopLevel] at h
    exact absurd h stops_pure
  | cons n items ih =>
    cases n with
    | none =>
      rw [visitTopLevel] at h
      exact (stops_throw.mp h).1
    | some n =>
      rw [visitTopLevel_some, stops_bind] at h
      rcases h with h | ⟨_, s₁, hitem, hrest⟩
      · obtain ⟨fault, rfl, hfault⟩ := stops_recording.mp h
        rw [show fault = .missingNode from (stopsIn_visitItem hs.frame hs.scope _ s' hfault).1.1]
      · exact ih ((gives_member hs.frame hs.scope hitem).steady hs).1 hrest

/-- A list of members without gaps ends well. -/
theorem gives_visitTopLevel_of_whole (hs : s.Steady) (hitems : Node.AllItems Node.Whole items) :
    ∃ s', Gives (visitTopLevel items) s () s' := by
  induction items generalizing s with
  | nil => exact ⟨s, gives_visitTopLevel_nil.mpr rfl⟩
  | cons c items ih =>
    obtain ⟨n, rfl, hn⟩ := hitems.head
    rw [visitTopLevel_some]
    rcases gives_or_stops (recording (visitItem n)) s with ⟨_, s₁, hitem⟩ | ⟨e, s₁, hstops⟩
    · obtain ⟨s', hrest⟩ := ih ((gives_member hs.frame hs.scope hitem).steady hs).1 hitems.tail
      exact ⟨s', hitem.bind_iff.mpr hrest⟩
    · obtain ⟨fault, -, hfault⟩ := stops_recording.mp hstops
      have hordinary : StopsIn False (s.Refuses n) (visitItem n) s :=
        stopsIn_visitItem_of_whole (.inr hn) hs.frame hs.scope
      exact (hordinary _ _ hfault).1.2.elim

theorem lower_eq (s : State) (root : Node) :
    s.lower (some root) = (s.run (recording do let _ ← visit root)).map fun outcome =>
      ⟨outcome.state.failure?, outcome.warnings, outcome.state⟩ := by
  show (_ >>= _) = _
  cases s.run _ <;> rfl

theorem lower_of_gives (hs : s.Steady) (stamp : Stamp)
    (h : Gives (visitTopLevel items) { s with warnings := [] } () s') :
    s.lower (some (.seq stamp .program items)) = .ok ⟨s'.failure?, s'.warnings, s'⟩ := by
  have hframe : ({ s with warnings := [] } : State).frame = none := hs.frame
  have hvisit : Gives (do let _ ← visit (.seq stamp .program items) : LowerM Unit)
      { s with warnings := [] } () s' := by
    simp only [gives_bind, gives_pure]
    exact ⟨none, s', gives_visit_program.mpr ⟨hframe, h, rfl⟩, trivial, rfl⟩
  have hstep : (recording do let _ ← visit (.seq stamp .program items)).run.run
      { s with warnings := [] } = (.ok (), s') :=
    gives_recording.mpr (.inl hvisit)
  rw [lower_eq]
  unfold State.run
  rw [hstep]
  rfl

/-- Lowering one more program ends well, with the failure of all rejections so far, or it lacks a
node. -/
theorem lower_program (hs : s.Steady) (stamp : Stamp) (items : List (Option Node)) :
    (∃ s', Gives (visitTopLevel items) { s with warnings := [] } () s' ∧
      s.lower (some (.seq stamp .program items)) = .ok ⟨s'.failure?, s'.warnings, s'⟩) ∨
    s.lower (some (.seq stamp .program items)) = .error .missingNode := by
  rcases gives_or_stops (visitTopLevel items) { s with warnings := [] } with ⟨_, s', h⟩ | ⟨e, s', h⟩
  · exact .inl ⟨s', h, lower_of_gives hs stamp h⟩
  · right
    have hframe : ({ s with warnings := [] } : State).frame = none := hs.frame
    obtain rfl := missing_of_stops_visitTopLevel hs.cleared h
    have hvisit : Stops (do let _ ← visit (.seq stamp .program items) : LowerM Unit)
      { s with warnings := [] }
        (.fault .missingNode) s' :=
      stops_bind.mpr (.inl ((stops_visit_program hframe).mpr h))
    have hstep : (recording do let _ ← visit (.seq stamp .program items)).run.run
        { s with warnings := [] } = (.error (.fault .missingNode), s') :=
      stops_recording.mpr ⟨_, rfl, hvisit⟩
    rw [lower_eq]
    unfold State.run
    rw [hstep]
    rfl

theorem State.Reached.lower (hs : s.Reached sourceName) (stamp : Stamp)
    (items : List (Option Node)) :
    (∃ out, s.lower (some (.seq stamp .program items)) = .ok out ∧ out.state.Reached sourceName) ∨
      s.lower (some (.seq stamp .program items)) = .error .missingNode := by
  rcases lower_program hs.steady stamp items with ⟨s', hitems, hlower⟩ | hlower
  · exact .inl ⟨_, hlower, .call hs hitems⟩
  · exact .inr hlower

end CSubset.Lowering
