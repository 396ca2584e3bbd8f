import CSubset.Proofs.Lowering.Members

/-!
# Names at the level of the module

Functions and global variables share one name space: no two of them have the same name
(`Module.Consistent`). The table of names knows them all, and what it takes for a function is one
(`State.Named`). Both hold between members, whether or not some of them were rejected
(`State.Reached.named`).

What a member does to functions, variables and names is one of four things (`State.Member.effect`).
A definition whose body was begun does the same to them whether it is accepted or not, but for the
body itself (`State.Begun`). At most one name is added to the module, at the end of its list
(`Module.Adds`).
-/

namespace CSubset

namespace IR.Module

variable {m m' : Module} {name : String}

def funcNames (m : Module) : List String := m.funcs.map (·.name)

def globalNames (m : Module) : List String := m.globals.map (·.name)

theorem hasFunc_iff : m.hasFunc name = true ↔ name ∈ m.funcNames := by
  simp [hasFunc, funcNames]

theorem hasFunc_eq_false_iff : m.hasFunc name = false ↔ name ∉ m.funcNames := by
  rw [← hasFunc_iff, Bool.not_eq_true]

theorem hasGlobal_iff : m.hasGlobal name = true ↔ name ∈ m.globalNames := by
  simp [hasGlobal, globalNames]

theorem hasGlobal_eq_false_iff : m.hasGlobal name = false ↔ name ∉ m.globalNames := by
  rw [← hasGlobal_iff, Bool.not_eq_true]

theorem func?_eq_none_iff : m.func? name = none ↔ name ∉ m.funcNames := by
  simp [func?, funcNames]

theorem funcNames_modifyFunc (m : Module) (name : String) {change : Func → Func}
    (hchange : ∀ f, (change f).name = f.name) :
    (m.modifyFunc name change).funcNames = m.funcNames := by
  unfold funcNames modifyFunc
  rw [List.map_map]
  refine List.map_congr_left fun f _ => ?_
  show (if f.name = name then change f else f).name = f.name
  split
  · exact hchange f
  · rfl

theorem globalNames_addGlobal (m : Module) (x : Global) :
    (m.addGlobal x).globalNames = m.globalNames ++ [x.name] := by
  simp [globalNames, addGlobal]

/-- Each name belongs to one function or to one global variable. -/
structure Consistent (m : Module) : Prop where
  funcs : m.funcNames.Nodup
  globals : m.globalNames.Nodup
  apart : ∀ name ∈ m.funcNames, name ∉ m.globalNames

/-- Module `m'` has the names of `m`, and perhaps one more that neither a function nor a variable of
`m` has. -/
inductive Adds (m m' : Module) : Prop where
  | nothing (hfuncs : m'.funcNames = m.funcNames) (hglobals : m'.globalNames = m.globalNames)
  | func (name : String) (hfunc : name ∉ m.funcNames) (hglobal : name ∉ m.globalNames)
    (hfuncs : m'.funcNames = m.funcNames ++ [name]) (hglobals : m'.globalNames = m.globalNames)
  | global (name : String) (hfunc : name ∉ m.funcNames) (hglobal : name ∉ m.globalNames)
    (hfuncs : m'.funcNames = m.funcNames) (hglobals : m'.globalNames = m.globalNames ++ [name])

theorem Consistent.adds (hm : m.Consistent) (h : m.Adds m') : m'.Consistent := by
  have happend : ∀ {names : List String} {name : String}, names.Nodup → name ∉ names →
      (names ++ [name]).Nodup := by
    intro names name hnames hname
    refine List.nodup_append.mpr ⟨hnames, by simp, ?_⟩
    rintro other hother _ hmem rfl
    exact hname (List.mem_singleton.mp hmem ▸ hother)
  cases h with
  | nothing hfuncs hglobals =>
    refine ⟨hfuncs ▸ hm.funcs, hglobals ▸ hm.globals, ?_⟩
    rw [hfuncs, hglobals]
    exact hm.apart
  | func name hfunc hglobal hfuncs hglobals =>
    refine ⟨hfuncs ▸ happend hm.funcs hfunc, hglobals ▸ hm.globals, ?_⟩
    rw [hfuncs, hglobals]
    intro other hother
    rcases List.mem_append.mp hother with hother | hother
    · exact hm.apart other hother
    · exact List.mem_singleton.mp hother ▸ hglobal
  | global name hfunc hglobal hfuncs hglobals =>
    refine ⟨hfuncs ▸ hm.funcs, hglobals ▸ happend hm.globals hglobal, ?_⟩
    rw [hfuncs, hglobals]
    intro other hother hmem
    rcases List.mem_append.mp hmem with hmem | hmem
    · exact hm.apart other hother hmem
    · exact hfunc (List.mem_singleton.mp hmem ▸ hother)

end IR.Module

namespace Lowering

open IR (Ty Value Func Param Module)

variable {s s' t : State} {n : Node} {name : String} {sig : Signature} {isDef : Bool}
  {defined : List String} {m m' : Module}

/-! ## What a member does -/

/-- What a definition leaves behind once its body was begun, whether it was accepted or not. -/
structure State.Begun (s : State) (name : String) (sig : Signature) (m : Module) (s' : State) :
    Prop where
  defined : s'.defined = name :: s.defined
  globals : s'.module.globals = s.module.globals
  funcNames : s'.module.funcNames = m.funcNames
  others : ∀ other, other ≠ name → s'.module.func? other = s.module.func? other
  func : ∃ fn, s'.module.func? name = some fn ∧ fn.ret = sig.ret ∧
    fn.params.map (·.ty) = sig.params.map (·.ty)
  symbols : ∃ new, s'.symbols = new ++ (name, .func) :: s.symbols ∧
    ∀ p ∈ new, ∃ slot, p.2 = .var slot (some name)

theorem State.Keeps.begun {fn : Func} (hdecl : DeclaresFunction s.defined name sig true s.module m)
    (hfn : m.func? name = some fn)
    (hkeeps : (({ s with scope := name }.declareFunction name sig m).opened name fn).Keeps name t) :
    s.Begun name sig m t := by
  obtain ⟨hothers, fn', hfn', hret, htypes, -, -⟩ :=
    hdecl.opened hfn (t := { s with scope := name }.declareFunction name sig m) rfl
  rw [← hkeeps.module] at hothers hfn'
  refine ⟨hkeeps.defined, ?_, ?_, hothers, ⟨fn', hfn', hret, htypes⟩, hkeeps.symbols⟩
  · rw [hkeeps.module]
    exact hdecl.globals
  · rw [hkeeps.module]
    exact m.funcNames_modifyFunc name fun _ => rfl

theorem State.Begun.setBlocks (h : s.Begun name sig m t) (bs : List IR.Block) :
    s.Begun name sig m { t with module := t.module.modifyFunc name fun fn =>
      { fn with blocks := bs } } := by
  obtain ⟨fn, hfn, hret, htypes⟩ := h.func
  refine ⟨h.defined, h.globals, ?_, ?_, ⟨{ fn with blocks := bs }, ?_, hret, htypes⟩, h.symbols⟩
  · refine Eq.trans ?_ h.funcNames
    exact t.module.funcNames_modifyFunc name fun _ => rfl
  · intro other hother
    rw [Module.func?_setBlocks, if_neg hother]
    exact h.others other hother
  · rw [Module.func?_setBlocks, if_pos rfl, hfn, Option.map_some]

/-- The scope, the frame and the reports do not matter. -/
theorem State.Begun.congr (h : s.Begun name sig m t) (hdefined : s'.defined = t.defined)
    (hmodule : s'.module = t.module) (hsymbols : s'.symbols = t.symbols) :
    s.Begun name sig m s' where
  defined := hdefined.trans h.defined
  globals := hmodule ▸ h.globals
  funcNames := hmodule ▸ h.funcNames
  others := hmodule ▸ h.others
  func := hmodule ▸ h.func
  symbols := hsymbols ▸ h.symbols

/-- The signature decides about the module. -/
theorem DeclaresFunction.unique {m₁ m₂ : Module} (h₁ : DeclaresFunction defined name sig isDef m m₁)
    (h₂ : DeclaresFunction defined name sig isDef m m₂) : m₁ = m₂ := by
  cases hfn : m.func? name with
  | none =>
    rw [declaresFunction_iff_of_none hfn] at h₁ h₂
    rw [h₁, h₂]
  | some fn =>
    rw [declaresFunction_iff_of_some hfn] at h₁ h₂
    rw [h₁.2.2, h₂.2.2]

theorem State.Refuses.begun (h : s.Refuses n s') (hbegins : s.Begins n name sig m) :
    s.Begun name sig m s' := by
  cases h with
  | early ws hnot => exact absurd hbegins (hnot name sig m)
  | body hsig _ hdecl hfn hkeeps =>
    obtain ⟨_, _, _, _, _, heq, hsig', -, hdecl'⟩ := hbegins
    cases heq
    obtain rfl := Option.mem_unique hsig hsig'
    obtain rfl := hdecl.unique hdecl'
    exact (hkeeps.begun hdecl hfn).congr rfl rfl rfl

/-- A member that is given up before a body is begun only leads to warnings. -/
theorem State.Refuses.warned (h : s.Refuses n s') (hnot : ∀ name sig m, ¬s.Begins n name sig m) :
    ∃ ws, s' = s.warned ws := by
  cases h with
  | early ws _ => exact ⟨ws, rfl⟩
  | body hsig hglobal hdecl _ _ =>
    exact absurd ⟨_, _, _, _, _, rfl, hsig, hglobal, hdecl⟩ (hnot _ _ _)

theorem State.Member.begun (h : s.Member n s') (hbegins : s.Begins n name sig m) :
    s.Begun name sig m s' := by
  cases h with
  | refused hr h => exact (h.begun hbegins).congr rfl rfl rfl
  | accepted h =>
    obtain ⟨stamp, place, ret, params, body, rfl, hsig, hglobal, hdecl⟩ := hbegins
    cases h with
    | definition hdef =>
      obtain ⟨sig', m', fn, t₁, t₂, g, hsig', -, hdecl', hfn, hparams, hitems, hg, -, -, rfl⟩ :=
        hdef
      obtain rfl := Option.mem_unique hsig hsig'
      obtain rfl := hdecl.unique hdecl'
      obtain ⟨_, _, -, hframe⟩ :=
        State.opened_frame ({ s with scope := name }.declareFunction name sig m) name fn
      obtain ⟨k, hk, hkg⟩ := State.within_body hframe rfl hparams hitems hg
      have hfunc : g.func = name := (hk.trans hkg).grows.func
      have hbegun := ((hk.trans hkg).keeps.begun hdecl hfn).setBlocks (g.endWith (.ret none)).blocks
      rw [hfunc]
      exact hbegun.congr rfl rfl rfl

/-- A definition whose body is not begun only leads to reports. -/
theorem State.Member.reported (h : s.Member n s') (hkind : n.kind = .definition)
    (hnot : ∀ name sig m, ¬s.Begins n name sig m) :
    ∃ ws rs, s' = { s with warnings := ws, rejections := rs } := by
  cases h with
  | refused hr h =>
    obtain ⟨ws, rfl⟩ := h.warned hnot
    exact ⟨_, _, rfl⟩
  | accepted h =>
    cases h with
    | global hform _ _ => rcases hform with rfl | rfl <;> cases hkind
    | prototype _ _ _ => cases hkind
    | definition hdef =>
      obtain ⟨sig, m, _, _, _, _, hsig, hglobal, hdecl, -⟩ := hdef
      exact absurd ⟨_, _, _, _, _, rfl, hsig, hglobal, hdecl⟩ (hnot _ _ _)

/-- A member declares a variable or a function, begins a definition, or leads to reports only. -/
inductive State.Effect (s : State) : State → Prop where
  | global (x : Variable) (hfunc : s.module.hasFunc x.name = false) : s.Effect (s.declareGlobal x)
  | prototype {name : String} {sig : Signature} {m : Module}
    (hglobal : s.module.hasGlobal name = false)
    (hdecl : DeclaresFunction s.defined name sig false s.module m) : s.Effect
      (s.declareFunction name sig m)
  | begun {name : String} {sig : Signature} {m : Module} {s' : State}
    (hglobal : s.module.hasGlobal name = false)
    (hdecl : DeclaresFunction s.defined name sig true s.module m)
      (hbegun : s.Begun name sig m s') : s.Effect s'
  | reports (ws : List Warning) (rs : List Rejection) :
    s.Effect { s with warnings := ws, rejections := rs }

theorem State.Member.effect (h : s.Member n s') : s.Effect s' := by
  by_cases hbegins : ∃ name sig m, s.Begins n name sig m
  · obtain ⟨name, sig, m, hbegins⟩ := hbegins
    have hbegun := h.begun hbegins
    obtain ⟨_, _, _, _, _, -, -, hglobal, hdecl⟩ := hbegins
    exact .begun hglobal hdecl hbegun
  · have hnot : ∀ name sig m, ¬s.Begins n name sig m :=
      fun name sig m hb => hbegins ⟨name, sig, m, hb⟩
    cases h with
    | refused hr h =>
      obtain ⟨ws, rfl⟩ := h.warned hnot
      exact .reports _ _
    | accepted h =>
      cases h with
      | global _ _ hfunc => exact .global _ hfunc
      | prototype _ hglobal hdecl => exact .prototype hglobal hdecl
      | definition hdef =>
        obtain ⟨sig, m, _, _, _, _, hsig, hglobal, hdecl, -⟩ := hdef
        exact absurd ⟨_, _, _, _, _, rfl, hsig, hglobal, hdecl⟩ (hnot _ _ _)

/-! ## Names that are added -/

theorem DeclaresFunction.funcNames (h : DeclaresFunction defined name sig isDef m m') :
    (name ∈ m.funcNames ∧ m'.funcNames = m.funcNames) ∨
      (name ∉ m.funcNames ∧ m'.funcNames = m.funcNames ++ [name]) := by
  cases h with
  | first hnone =>
    refine .inr ⟨Module.func?_eq_none_iff.mp hnone, ?_⟩
    simp [Module.funcNames, Module.addFunc]
  | again fn hfn hdef hsame =>
    have hmem : name ∈ m.funcNames := by
      by_cases hmem : name ∈ m.funcNames
      · exact hmem
      · rw [Module.func?_eq_none_iff.mpr hmem] at hfn
        cases hfn
    refine .inl ⟨hmem, ?_⟩
    cases isDef with
    | false => rfl
    | true => exact m.funcNames_modifyFunc name fun _ => rfl

theorem DeclaresFunction.adds (h : DeclaresFunction defined name sig isDef m m')
    (hglobal : m.hasGlobal name = false) {m'' : Module} (hfuncs : m''.funcNames = m'.funcNames)
    (hglobals : m''.globals = m.globals) : m.Adds m'' := by
  have hglobals : m''.globalNames = m.globalNames := by
    unfold Module.globalNames
    rw [hglobals]
  rcases h.funcNames with ⟨-, hnames⟩ | ⟨hnew, hnames⟩
  · exact .nothing (hfuncs.trans hnames) hglobals
  · exact .func name hnew (Module.hasGlobal_eq_false_iff.mp hglobal) (hfuncs.trans hnames) hglobals

theorem State.Effect.adds (h : s.Effect s') : s.module.Adds s'.module := by
  cases h with
  | reports ws rs => exact .nothing rfl rfl
  | prototype hglobal hdecl => exact hdecl.adds hglobal rfl hdecl.globals
  | begun hglobal hdecl hbegun => exact hdecl.adds hglobal hbegun.funcNames hbegun.globals
  | global x hfunc =>
    unfold State.declareGlobal
    dsimp only
    split
    next => exact .nothing rfl rfl
    next hglobal =>
      refine .global x.name (Module.hasFunc_eq_false_iff.mp hfunc) ?_ rfl
        (s.module.globalNames_addGlobal _)
      exact fun hmem => hglobal (Module.hasGlobal_iff.mpr hmem)

/-! ## The table of names

Every function and every global variable can be found under its name. -/

/-- Names at module level are used consistently, and the table of names knows them. -/
structure State.Named (s : State) : Prop extends s.module.Consistent where
  func : ∀ x, (x, .func) ∈ s.symbols → x ∈ s.module.funcNames
  bound : ∀ x, x ∈ s.module.funcNames ∨ x ∈ s.module.globalNames → ∃ sym, (x, sym) ∈ s.symbols

theorem State.symbol?_ne_none {x : String} {sym : Symbol} (h : (x, sym) ∈ s.symbols) :
    s.symbol? x ≠ none := by
  intro hnone
  have hne := List.lookup_eq_none_iff.mp hnone (x, sym) h
  simp at hne

/-- A function is declared, and variables may be bound after that. -/
theorem State.Named.declare (hs : s.Named)
    (hdecl : DeclaresFunction s.defined name sig isDef s.module m) (hm : s'.module.Consistent)
    (hfuncs : s'.module.funcNames = m.funcNames) (hglobals : s'.module.globals = s.module.globals)
    (hsymbols : ∃ new, s'.symbols = new ++ (name, .func) :: s.symbols ∧
      ∀ p ∈ new, ∃ slot, p.2 = .var slot (some name)) : s'.Named := by
  obtain ⟨new, hsymbols, hnew⟩ := hsymbols
  -- the function is new or was there before; either way its name is the only one to add
  have hmem : ∀ x, x ∈ s'.module.funcNames ↔ x = name ∨ x ∈ s.module.funcNames := by
    intro x
    rw [hfuncs]
    rcases hdecl.funcNames with ⟨hname, hnames⟩ | ⟨-, hnames⟩
    · rw [hnames]
      constructor
      · exact .inr
      · rintro (rfl | hx)
        · exact hname
        · exact hx
    · rw [hnames, List.mem_append, List.mem_singleton, or_comm]
  refine ⟨hm, ?_, ?_⟩
  · intro x hx
    rw [hsymbols] at hx
    rcases List.mem_append.mp hx with hx | hx
    · obtain ⟨slot, hvar⟩ := hnew _ hx
      cases hvar
    · rcases List.mem_cons.mp hx with hx | hx
      · exact (hmem x).mpr (.inl (Prod.mk.inj hx).1)
      · exact (hmem x).mpr (.inr (hs.func x hx))
  · intro x hx
    suffices hold : ∃ sym, (x, sym) ∈ (name, Symbol.func) :: s.symbols by
      obtain ⟨sym, hsym⟩ := hold
      exact ⟨sym, hsymbols ▸ List.mem_append_right new hsym⟩
    have hx : x = name ∨ x ∈ s.module.funcNames ∨ x ∈ s.module.globalNames := by
      rcases hx with hx | hx
      · exact ((hmem x).mp hx).imp_right .inl
      · unfold Module.globalNames at hx
        rw [hglobals] at hx
        exact .inr (.inr hx)
    rcases hx with rfl | hx
    · exact ⟨.func, List.mem_cons_self⟩
    · obtain ⟨sym, hsym⟩ := hs.bound x hx
      exact ⟨sym, List.mem_cons_of_mem _ hsym⟩

theorem State.Effect.named (hs : s.Named) (h : s.Effect s') : s'.Named := by
  have hm := hs.toConsistent.adds h.adds
  cases h with
  | reports ws rs => exact ⟨hm, hs.func, hs.bound⟩
  | prototype hglobal hdecl => exact hs.declare hdecl hm rfl hdecl.globals ⟨[], rfl, nofun⟩
  | begun hglobal hdecl hbegun =>
    exact hs.declare hdecl hm hbegun.funcNames hbegun.globals hbegun.symbols
  | global x hfunc =>
    have hfuncs : (s.declareGlobal x).module.funcNames = s.module.funcNames := by
      rw [Module.funcNames, s.funcs_declareGlobal, Module.funcNames]
    refine ⟨hm, ?_, ?_⟩
    · intro y hy
      rcases List.mem_cons.mp hy with hy | hy
      · cases hy
      · exact hfuncs ▸ hs.func y hy
    · intro y hy
      rw [hfuncs, ← Module.hasGlobal_iff] at hy
      have hy : y = x.name ∨ y ∈ s.module.funcNames ∨ y ∈ s.module.globalNames := by
        rcases hy with hy | hy
        · exact .inr (.inl hy)
        · exact ((s.module.hasGlobal_declare x.name y).mp hy).imp_right fun h => .inr
            (Module.hasGlobal_iff.mp h)
      rcases hy with rfl | hy
      · exact ⟨_, List.mem_cons_self⟩
      · obtain ⟨sym, hsym⟩ := hs.bound y hy
        exact ⟨sym, List.mem_cons_of_mem _ hsym⟩

theorem State.named_start (sourceName : String) : (State.start sourceName).Named where
  funcs := List.nodup_nil
  globals := List.nodup_nil
  apart := nofun
  func := nofun
  bound := by
    rintro x (hx | hx)
    · cases hx
    · cases hx

theorem State.Reached.named {sourceName : String} (hs : s.Reached sourceName) : s.Named :=
  (hs.ind (motive := State.Named) (State.named_start sourceName)
    (fun _ h => ⟨h.toConsistent, h.func, h.bound⟩) fun _ _ _ _ h hmember =>
    hmember.effect.named h).2

end Lowering

end CSubset
