import CSubset.Proofs.Lowering.Symbols
import CSubset.Proofs.Lowering.Verdicts
import CSubset.Proofs.Related

/-!
# The module over time

What a module has is kept. A definition that is given up changes nothing but the function that it
names, which is left without a body (`failed_definition_leaves_module`). Over any number of members
and programs, the functions keep their places, names and types, those with a body stay as they are,
and names stay unambiguous; this holds at each point of the way (`symbols_kept`).

A function is found by its name, so most facts are about `Module.func?`. They are turned into facts
about the lists of functions, place by place, in `Module.aligned`.
-/

namespace CSubset

namespace IR.Module

variable {m m' : Module} {R : Func → Func → Prop}

/-! ## Functions in their places -/

/-- The functions of `m` stand in front of those that `m'` has besides. -/
theorem aligned {names : List String} (hm : m.Found) (hm' : m'.Found)
    (hnames : m'.funcNames = m.funcNames ++ names)
    (hfuncs : ∀ name fn, m.func? name = some fn → ∃ fn', m'.func? name = some fn' ∧ R fn fn') :
    ∃ kept new, m'.funcs = kept ++ new ∧ List.Forall₂ R m.funcs kept ∧
      new.map (·.name) = names := by
  obtain ⟨kept, new, heq, hkept, hnew⟩ := List.map_eq_append_iff.mp hnames
  refine ⟨kept, new, heq, forall₂_of_getElem? fun i => ?_, hnew⟩
  have hname : (kept[i]?).map (·.name) = (m.funcs[i]?).map (·.name) := by
    rw [← List.getElem?_map, ← List.getElem?_map, hkept]
    rfl
  cases hfn : m.funcs[i]? with
  | none =>
    rw [hfn, Option.map_none, Option.map_eq_none_iff] at hname
    rw [hname]
    exact .none
  | some fn =>
    rw [hfn, Option.map_some, Option.map_eq_some_iff] at hname
    obtain ⟨fn', hfn', hname⟩ := hname
    have hmem : fn' ∈ m'.funcs := heq ▸ List.mem_append_left new (List.mem_of_getElem? hfn')
    obtain ⟨other, hother, hR⟩ := hfuncs fn.name fn (hm fn (List.mem_of_getElem? hfn))
    rw [← hname, hm' fn' hmem] at hother
    rw [hfn', Option.some.inj hother]
    exact .some hR

/-- The functions with their types. -/
def types (m : Module) : List (String × Ty × List Ty) :=
  m.funcs.map fun fn => (fn.name, fn.ret, fn.params.map (·.ty))

theorem types_eq (hm : m.Found) (hm' : m'.Found) (hnames : m'.funcNames = m.funcNames)
    (hfuncs : ∀ name fn, m.func? name = some fn → ∃ fn', m'.func? name = some fn' ∧
      fn'.ret = fn.ret ∧ fn'.params.map (·.ty) = fn.params.map (·.ty)) : m'.types = m.types := by
  obtain ⟨kept, new, heq, hkept, hnew⟩ :=
    aligned (R := fun fn fn' => (fn'.name, fn'.ret, fn'.params.map (·.ty)) =
      (fn.name, fn.ret, fn.params.map (·.ty))) hm hm' (hnames.trans (List.append_nil _).symm)
      fun name fn hfn => by
        obtain ⟨fn', hfn', hret, hparams⟩ := hfuncs name fn hfn
        exact ⟨fn', hfn', by rw [func?_name hfn, func?_name hfn', hret, hparams]⟩
  obtain rfl := List.map_eq_nil_iff.mp hnew
  unfold types
  rw [heq, List.append_nil, ← List.forall₂_eq_eq_eq, List.forall₂_map_left_iff,
    List.forall₂_map_right_iff]
  exact hkept.flip

/-- New functions stand behind the old ones. -/
theorem Adds.order (h : m.Adds m') : m.funcNames <+: m'.funcNames := by
  cases h with
  | nothing hfuncs _ => exact hfuncs ▸ List.prefix_refl _
  | func name _ _ hfuncs _ => exact hfuncs ▸ List.prefix_append _ _
  | global name _ _ hfuncs _ => exact hfuncs ▸ List.prefix_refl _

end IR.Module

namespace Lowering

open IR (Ty Value Func Param Module)

variable {sourceName name : String} {s s' t t' : State} {n : Node} {u : Unit} {e : Stop}
  {sig : Signature} {m m' : Module} {fn : Func} {items : List (Option Node)}

/-! ## Definitions that are given up -/

/-- Function `fn` is left as `fn'`: its type and its code are the same, and if it is not the one
with this name, so are the names of its parameters. -/
structure Spared (name? : Option String) (fn fn' : Func) : Prop extends SameCode fn fn' where
  name : fn'.name = fn.name
  others : name? ≠ some fn.name → fn' = fn

/-- Module `m'` is what is left of `m`, with at most one new function, which has this name and no
body. -/
structure Unspoiled (name? : Option String) (m m' : Module) : Prop where
  globals : m'.globals = m.globals
  funcs : ∃ kept new, m'.funcs = kept ++ new ∧ List.Forall₂ (Spared name?) m.funcs kept ∧
    new.length ≤ 1 ∧ ∀ fn ∈ new, name? = some fn.name ∧ fn.blocks = []

theorem Unspoiled.refl (name? : Option String) (m : Module) : Unspoiled name? m m where
  globals := rfl
  funcs := by
    refine ⟨m.funcs, [], (List.append_nil _).symm, ?_, Nat.zero_le 1, nofun⟩
    exact List.forall₂_same.mpr fun fn _ => ⟨.refl fn, rfl, fun _ => rfl⟩

theorem State.Begins.defines (h : s.Begins n name sig m) : n.defines? = some name := by
  obtain ⟨_, _, _, _, _, rfl, -⟩ := h
  rfl

/-- A function whose body was begun and given up has no body. -/
theorem State.Refuses.bodiless (hs : s.Steady) (h : s.Refuses n s')
    (hbegins : s.Begins n name sig m) : ∃ fn, s'.module.func? name = some fn ∧ fn.blocks = [] := by
  obtain ⟨fn, hfn, -⟩ := (h.begun hbegins).func
  obtain ⟨_, _, _, _, _, -, -, -, hdecl⟩ := hbegins
  refine ⟨fn, hfn, ?_⟩
  rcases h.func? hfn with ⟨fn₀, hfn₀, hsame⟩ | hempty
  · exact hsame.blocks.trans (hs.bodiless name fn₀ hfn₀ (hdecl.not_mem_defined hs))
  · exact hempty

theorem State.Refuses.spared (hs : s.Steady) (h : s.Refuses n s') (hbegins : s.Begins n name sig m)
    {other : String} (hfn : s.module.func? other = some fn) :
    ∃ fn', s'.module.func? other = some fn' ∧ Spared (some name) fn fn' := by
  have hname := Module.func?_name hfn
  by_cases hother : other = name
  · subst hother
    obtain ⟨fn', hfn', hret, htypes, -⟩ := (h.steady hs).2.funcs other fn hfn
    obtain ⟨_, hbodiless, hempty⟩ := h.bodiless hs hbegins
    obtain rfl := Option.mem_unique hfn' hbodiless
    obtain ⟨_, _, _, _, _, -, -, -, hdecl⟩ := hbegins
    have hblocks : fn.blocks = [] := hs.bodiless other fn hfn (hdecl.not_mem_defined hs)
    have hname' := Module.func?_name hfn'
    exact ⟨fn', hfn', ⟨hret, htypes, hempty.trans hblocks.symm⟩, hname'.trans hname.symm,
      fun hne => absurd (by rw [hname]) hne⟩
  · exact ⟨fn, ((h.begun hbegins).others other hother).trans hfn, .refl fn, rfl, fun _ => rfl⟩

/-- A definition that is given up leaves at most the declaration of its function. -/
theorem State.Refuses.unspoiled (hs : s.Steady) (hfound : s.module.Found) (h : s.Refuses n s') :
    Unspoiled n.defines? s.module s'.module := by
  by_cases hbegins : ∃ name sig m, s.Begins n name sig m
  · obtain ⟨name, sig, m, hbegins⟩ := hbegins
    have hbegun := h.begun hbegins
    have ⟨_, _, _, _, _, _, _, _, hdecl⟩ := hbegins
    obtain ⟨names, hnames, hnew⟩ : ∃ names, s'.module.funcNames = s.module.funcNames ++ names ∧
        (names = [] ∨ names = [name]) := by
      rw [hbegun.funcNames]
      rcases hdecl.funcNames with ⟨-, hnames⟩ | ⟨-, hnames⟩
      · exact ⟨[], by rw [hnames, List.append_nil], .inl rfl⟩
      · exact ⟨[name], hnames, .inr rfl⟩
    obtain ⟨kept, new, heq, hkept, hmap⟩ :=
      Module.aligned hfound (h.found hfound) hnames fun other fn hfn => h.spared hs hbegins hfn
    rw [hbegins.defines]
    refine ⟨hbegun.globals, kept, new, heq, hkept, ?_, fun fn hfn => ?_⟩
    · rw [← List.length_map, hmap]
      rcases hnew with rfl | rfl <;> simp
    · have hname : fn.name = name := by
        have hmem : fn.name ∈ names := hmap ▸ List.mem_map_of_mem hfn
        rcases hnew with rfl | rfl
        · cases hmem
        · exact List.mem_singleton.mp hmem
      obtain ⟨fn', hfn', hempty⟩ := h.bodiless hs hbegins
      have hmem : fn ∈ s'.module.funcs := heq ▸ List.mem_append_right kept hfn
      rw [← hname, h.found hfound fn hmem] at hfn'
      exact ⟨by rw [hname], Option.some.inj hfn' ▸ hempty⟩
  · obtain ⟨ws, rfl⟩ := h.warned fun name sig m hb => hbegins ⟨name, sig, m, hb⟩
    exact .refl _ _

theorem stops_visitItem (hkind : n.kind = .definition) :
    Stops (visitItem n) s e s' ↔ Stops (visit n) s e s' := by
  unfold visitItem
  rw [hkind]
  simp only [stops_bind, stops_pure, and_false, exists_false, or_false]

/-- Lowering a definition ends outside functions. If it is given up, the module is what it was but
for the function that the definition names, and that function has no body if its body was begun. -/
theorem failed_definition_leaves_module (hs : s.Reached sourceName) (hkind : n.kind = .definition) :
    (∀ v s', Gives (visit n) s v s' → s'.frame = none ∧ s'.scope = "") ∧
      ∀ e s', Stops (visit n) s e s' → s'.frame = none ∧ s'.scope = "" ∧
        Unspoiled n.defines? s.module s'.module ∧
        ∀ name sig m, s.Begins n name sig m → ∃ fn ∈ s'.module.funcs, fn.name = name ∧
          fn.blocks = [] := by
  have hsteady := hs.steady
  constructor
  · intro v s' hgives
    have hitem := ((gives_visit_item hsteady.frame (.inl hkind)).mp hgives).1
    have hsteady' := (hitem.steady hsteady).1
    exact ⟨hsteady'.frame, hsteady'.scope⟩
  · intro e s' hstops
    have hrefuses :=
      (stopsIn_visitItem hsteady.frame hsteady.scope e s' ((stops_visitItem hkind).mpr hstops)).2
    have hsteady' := (hrefuses.steady hsteady).1
    refine ⟨hsteady'.frame, hsteady'.scope, hrefuses.unspoiled hsteady hs.found,
      fun name sig m hbegins => ?_⟩
    obtain ⟨fn, hfn, hempty⟩ := hrefuses.bodiless hsteady hbegins
    exact ⟨fn, List.mem_of_find?_eq_some hfn, Module.func?_name hfn, hempty⟩

/-- A function that is declared, and one with a body. -/
def outset : List (Option Node) :=
  let k : Stamp := ⟨⟨0, 0⟩, .unknown⟩
  let int : Option Node := some (.leaf k (.type (.known .int) false))
  let a : Option Node := some (.leaf k (.names ["a"] 0))
  let params : Option Node := some (.seq k .parameters [some (.binary k .declaration int a)])
  [some (.binary k .forward int (some (.unary k (.signature "f") params))),
    some (.ternary k .definition int (some (.unary k (.signature "g") params)) (some (.seq k .block
      [some (.unary k .ret a)])))]

/-- A definition of the function that is only declared. It does not return a value on every path. -/
def falling : Node :=
  let k : Stamp := ⟨⟨0, 0⟩, .unknown⟩
  let int : Option Node := some (.leaf k (.type (.known .int) false))
  let a : Option Node := some (.leaf k (.names ["a"] 0))
  let params : Option Node := some (.seq k .parameters [some (.binary k .declaration int a)])
  .ternary k .definition int (some (.unary k (.signature "f") params)) (some (.seq k .block
    [some (.binary k .ifThen a (some (.unary k .ret a)))]))

theorem falling_leaves_module :
    ∃ s s' e fn, State.Reached "a.c" s ∧ Stops (visit falling) s e s' ∧ s'.frame = none ∧
    s'.scope = "" ∧ Unspoiled (some "f") s.module s'.module ∧ fn ∈ s'.module.funcs ∧ fn.name = "f" ∧
      fn.blocks = [] := by
  have hcheck : (match (visitTopLevel outset (State.start "a.c") : Except Stop Unit × State) with
      | (.error _, _) => false
      | (.ok _, s) => s.module.hasGlobal "f" = false && !s.defined.contains "f" &&
          (s.module.func? "f").any (sameSignature · .i32 [⟨"a", .i32⟩]) &&
          match (visitItem falling s : Except Stop Unit × State) with
          | (.ok _, _) => false
          | (.error _, _) => true) = true := by decide +kernel
  rcases hrun : (visitTopLevel outset (State.start "a.c") : Except Stop Unit × State)
    with ⟨e | u, s⟩
  · simp [hrun] at hcheck
  · simp only [hrun, Bool.and_eq_true, decide_eq_true_eq, Bool.not_eq_true', List.contains_eq_mem,
      decide_eq_false_iff_not, Option.any_eq_true] at hcheck
    obtain ⟨⟨⟨hglobal, hdefined⟩, fn₀, hfn₀, hsame⟩, hstops⟩ := hcheck
    split at hstops
    next => cases hstops
    next e s' hitem =>
      have hvisit := (stops_visitItem rfl).mp hitem
      have hreached : s.Reached "a.c" := .call (s := State.start "a.c") .start hrun
      obtain ⟨hframe, hscope, hunspoiled, hbodiless⟩ :=
        (failed_definition_leaves_module hreached rfl).2 e s' hvisit
      obtain ⟨fn, hfn, hname, hempty⟩ := hbodiless "f" ⟨.i32, [⟨"a", .i32⟩], []⟩ _
        ⟨_, _, _, _, _, rfl, rfl, hglobal, .again fn₀ hfn₀ (fun _ => hdefined) hsame⟩
      exact ⟨s, s', e, fn, hreached, hvisit, hframe, hscope, hunspoiled, hfn, hname, hempty⟩

/-! ## Members one after the other -/

/-- What the module of `s` has is kept in `s'`, whose names are unambiguous. -/
structure State.Advances (s s' : State) : Prop extends s.Later s' where
  found : s'.module.Found
  consistent : s'.module.Consistent
  order : s.module.funcNames <+: s'.module.funcNames
  global : s.module.globals <+: s'.module.globals

theorem State.Reached.advances (hs : s.Reached sourceName) : s.Advances s :=
  ⟨.refl s, hs.found, hs.named.toConsistent, List.prefix_refl _, List.prefix_refl _⟩

theorem State.Advances.trans (h₁ : s.Advances t) (h₂ : t.Advances t') : s.Advances t' :=
  ⟨h₁.toLater.trans h₂.toLater, h₂.found, h₂.consistent, h₁.order.trans h₂.order,
    h₁.global.trans h₂.global⟩

/-- The advance is a matter of the module and of the functions that have been begun. -/
theorem State.Advances.congr (h : s.Advances t) (hmodule : t'.module = t.module)
    (hdefined : t'.defined = t.defined) : s.Advances t' where
  funcs := hmodule ▸ h.funcs
  defined := hdefined ▸ h.defined
  globals := hmodule ▸ h.globals
  found := hmodule ▸ h.found
  consistent := hmodule ▸ h.consistent
  order := hmodule ▸ h.order
  global := hmodule ▸ h.global

theorem State.Advances.member (h : s.Advances t) (ht : t.Steady) (hmember : t.Member n t') :
    s.Advances t' := by
  have hadds := hmember.effect.adds
  refine ⟨h.toLater.trans (hmember.steady ht).2, hmember.found h.found, h.consistent.adds hadds,
    h.order.trans hadds.order, h.global.trans ?_⟩
  rcases hmember.globals with heq | ⟨x, heq⟩
  · exact heq ▸ List.prefix_refl _
  · exact heq ▸ List.prefix_append _ _

theorem State.Advances.refuses (h : s.Advances t) (ht : t.Steady) (hrefuses : t.Refuses n t') :
    s.Advances t' := by
  -- a recorded rejection makes no difference to the module
  have hmember : t.Member n { t' with rejections := t'.rejections ++
      [⟨.atTopLevel n.kind, none, ""⟩] } :=
    .refused nofun hrefuses
  exact (h.member ht hmember).congr rfl rfl

theorem State.Advances.members (h : s.Advances t) (ht : t.Steady)
    (hitems : Gives (visitTopLevel items) t u t') : s.Advances t' :=
  (invariant_of_gives_visitTopLevel (motive := s.Advances)
    (fun _ _ _ ht h hmember => h.member ht hmember) ht h hitems).2

/-- A run that breaks off does so at a member that is given up, or where a member is missing. -/
theorem State.Advances.broken (h : s.Advances t) (ht : t.Steady)
    (hitems : Stops (visitTopLevel items) t e t') : s.Advances t' := by
  induction items generalizing t with
  | nil =>
    rw [visitTopLevel] at hitems
    exact absurd hitems stops_pure
  | cons c items ih =>
    cases c with
    | none =>
      rw [visitTopLevel] at hitems
      obtain ⟨-, rfl⟩ := stops_throw.mp hitems
      exact h
    | some n =>
      rw [visitTopLevel_some, stops_bind] at hitems
      rcases hitems with hstops | ⟨_, t₁, hgives, hrest⟩
      · obtain ⟨fault, -, hfault⟩ := stops_recording.mp hstops
        exact h.refuses ht (stopsIn_visitItem ht.frame ht.scope _ _ hfault).2
      · have hmember := gives_member ht.frame ht.scope hgives
        exact ih (h.member ht hmember) (hmember.steady ht).1 hrest

/-! ## Inside a member -/

/-- Definition `n` has declared its function, with these parameters. -/
def State.Declared (s : State) (n : Node) (name : String) (ps : List Param) (t : State) : Prop :=
  ∃ stamp place ret params body,
    n = .ternary stamp .definition ret (some (.unary place (.signature name) params)) (some body) ∧
    Gives (Lowering.declareFunction ret ⟨.signature, place.pos⟩ name params true)
      { s with scope := name } ps t

/-- The points inside definition `n`, which stands behind `s`: it declares its function, begins the
body and lowers nodes in it. -/
inductive State.Inside (s : State) (n : Node) : State → Prop where
  | declared {name : String} {ps : List Param} {t : State} (h : s.Declared n name ps t) :
    s.Inside n t
  | opened {name : String} {ps : List Param} {t t' : State} (h : s.Declared n name ps t)
    (hopen : Gives (openBody name ps) t () t') : s.Inside n t'
  | lowered {t t' : State} {f : Frame} {c : Node} {v : Option Value} (h : s.Inside n t)
    (hframe : t.frame = some f) (hc : Gives (Lowering.visit c) t v t') : s.Inside n t'
  | stopped {t t' : State} {f : Frame} {c : Node} {e : Stop} (h : s.Inside n t)
    (hframe : t.frame = some f) (hopen : f.isOpen = true) (hc : Stops (Lowering.visit c) t e t') :
    s.Inside n t'

/-- The states on the way from `s`, which stands between members: a run may break off, or be inside
a definition. -/
inductive State.Passes (s : State) : State → Prop where
  | start : s.Passes s
  | broken {items : List (Option Node)} {e : Stop} {t : State}
    (h : Stops (visitTopLevel items) s e t) : s.Passes t
  | inside {n : Node} {t : State} (h : s.Inside n t) : s.Passes t

theorem State.Declared.begins {ps : List Param} (h : s.Declared n name ps t) :
    ∃ sig m, s.Begins n name sig m ∧ t = { s with scope := name }.declareFunction name sig m := by
  obtain ⟨stamp, place, ret, params, body, rfl, h⟩ := h
  obtain ⟨sig, m, hsig, -, hglobal, hdecl, rfl⟩ := gives_declareFunction.mp h
  exact ⟨sig, m, ⟨_, _, _, _, _, rfl, hsig, hglobal, hdecl⟩, rfl⟩

theorem State.Begins.unique {name' : String} {sig' : Signature} (h : s.Begins n name sig m)
    (h' : s.Begins n name' sig' m') : m = m' := by
  obtain ⟨_, _, _, _, _, rfl, hsig, -, hdecl⟩ := h
  obtain ⟨_, _, _, _, _, heq, hsig', -, hdecl'⟩ := h'
  cases heq
  obtain rfl := Option.mem_unique hsig hsig'
  exact hdecl.unique hdecl'

/-- A function is declared whose body has not been begun before. From then on the module has the
functions and types of `m`. -/
theorem State.Begins.advances (h : s.Begins n name sig m) (hs : s.Reached sourceName)
    (hfound : t.module.Found) (hnames : t.module.funcNames = m.funcNames)
    (hglobals : t.module.globals = s.module.globals)
    (hdefined : ∀ x, x ∈ s.defined → x ∈ t.defined)
    (hothers : ∀ other, other ≠ name → t.module.func? other = s.module.func? other)
    (hfunc : ∃ fn, t.module.func? name = some fn ∧ fn.ret = sig.ret ∧
      fn.params.map (·.ty) = sig.params.map (·.ty)) :
    s.Advances t ∧ t.module.types = m.types := by
  obtain ⟨_, _, _, _, _, -, -, hglobal, hdecl⟩ := h
  obtain ⟨fn, hfn, hret, htypes⟩ := hfunc
  obtain ⟨hothers', fn', hfn', hret', htypes', -, hold⟩ := hdecl.func?
  rw [← hret'] at hret
  rw [← htypes'] at htypes
  have hadds : s.module.Adds t.module := hdecl.adds hglobal hnames hglobals
  refine ⟨⟨⟨fun other fn₀ hfn₀ => ?_, hdefined, fun x hx => ?_⟩, hfound,
    hs.named.toConsistent.adds hadds, hadds.order, hglobals ▸ List.prefix_refl _⟩, ?_⟩
  · -- a function that was there before has the type it is declared with again
    by_cases hother : other = name
    · subst hother
      obtain ⟨hret₀, htypes₀⟩ := hold fn₀ hfn₀
      exact ⟨fn, hfn, hret.trans hret₀, htypes.trans htypes₀,
        fun hmem => absurd hmem (hdecl.not_mem_defined hs.steady)⟩
    · exact ⟨fn₀, (hothers other hother).trans hfn₀, rfl, rfl, fun _ => rfl⟩
  · unfold Module.hasGlobal at hx ⊢
    rwa [hglobals]
  · refine Module.types_eq (hdecl.found hs.found) hfound hnames fun other fn₀ hfn₀ => ?_
    by_cases hother : other = name
    · subst hother
      obtain rfl := Option.mem_unique hfn' hfn₀
      exact ⟨fn, hfn, hret, htypes⟩
    · rw [hothers' other hother] at hfn₀
      exact ⟨fn₀, (hothers other hother).trans hfn₀, rfl, rfl⟩

theorem State.Begun.advances (h : s.Begun name sig m t) (hbegins : s.Begins n name sig m)
    (hs : s.Reached sourceName) (hfound : t.module.Found) :
    s.Advances t ∧ t.module.types = m.types :=
  hbegins.advances hs hfound h.funcNames h.globals
    (fun _ hx => h.defined ▸ List.mem_cons_of_mem _ hx) h.others h.func

/-- By induction on the steps inside the member. -/
theorem State.Inside.advances (hs : s.Reached sourceName) (h : s.Inside n t) :
    ∃ name sig m, s.Begins n name sig m ∧ s.Advances t ∧ t.module.types = m.types := by
  induction h with
  | declared h =>
    obtain ⟨sig, m, hbegins, rfl⟩ := h.begins
    have ⟨_, _, _, _, _, _, _, _, hdecl⟩ := hbegins
    obtain ⟨hothers, fn, hfn, hret, htypes, -⟩ := hdecl.func?
    exact ⟨_, _, _, hbegins, hbegins.advances hs (hdecl.found hs.found) rfl hdecl.globals
      (fun _ hx => hx) hothers ⟨fn, hfn, hret, htypes⟩⟩
  | opened h hopen =>
    obtain ⟨sig, m, hbegins, rfl⟩ := h.begins
    have ⟨_, _, _, _, _, _, _, _, hdecl⟩ := hbegins
    obtain ⟨fn, hfn, hstore⟩ := gives_openBody.mp hopen
    obtain ⟨_, _, -, hframe⟩ := State.opened_frame _ _ fn
    obtain ⟨g, hg⟩ := within_of_gives_storeParams hstore hframe rfl
    refine ⟨_, _, _, hbegins, (hg.keeps.begun hdecl hfn).advances hbegins hs ?_⟩
    rw [hg.module]
    exact (hdecl.found hs.found).modifyFunc _ fun _ => rfl
  | lowered _ hframe hc ih =>
    obtain ⟨g, hg⟩ := within_of_gives_visit _ _ rfl _ _ _ _ hc hframe
    obtain ⟨name, sig, m, hbegins, hadvances, htypes⟩ := ih
    exact ⟨name, sig, m, hbegins, hadvances.congr hg.module hg.defined, hg.module ▸ htypes⟩
  | stopped _ hframe hopen hc ih =>
    have hkeeps := (stopsIn_visit _ (.inl trivial) _ rfl _ _ _ _ (.refl hframe) hopen _ _ hc).2
    obtain ⟨name, sig, m, hbegins, hadvances, htypes⟩ := ih
    exact ⟨name, sig, m, hbegins, hadvances.congr hkeeps.module hkeeps.defined,
      hkeeps.module ▸ htypes⟩

/-- The end of a definition has the functions and types of each point inside. -/
theorem State.Inside.types (hs : s.Reached sourceName) (h : s.Inside n t)
    (h' : s.Inside n t' ∨ Gives (visitTopLevel [some n]) s u t') :
    t'.module.types = t.module.types := by
  obtain ⟨name, sig, m, hbegins, -, htypes⟩ := h.advances hs
  rw [htypes]
  -- the declaration decides about the types, and there is only one in a definition
  rcases h' with h' | hgives
  · obtain ⟨_, _, _, hbegins', -, htypes'⟩ := h'.advances hs
    rw [htypes', hbegins.unique hbegins']
  · rw [visitTopLevel_some, gives_bind] at hgives
    obtain ⟨_, _, hitem, hrest⟩ := hgives
    obtain rfl := gives_visitTopLevel_nil.mp hrest
    have hmember := gives_member hs.steady.frame hs.steady.scope hitem
    exact ((hmember.begun hbegins).advances hbegins hs (hmember.found hs.found)).2

theorem State.Passes.advances (hs : s.Reached sourceName) (h : s.Passes t) : s.Advances t := by
  cases h with
  | start => exact hs.advances
  | broken h => exact hs.advances.broken hs.steady h
  | inside h =>
    obtain ⟨_, _, _, -, hadvances, -⟩ := h.advances hs
    exact hadvances

/-! ## Whole runs -/

/-- The states between members that come after `s`, in the same call or in later ones. -/
inductive State.Follows (s : State) : State → Prop where
  | refl : s.Follows s
  | call {t : State} (h : s.Follows t) : s.Follows { t with warnings := [] }
  | members {t t' : State} {items : List (Option Node)} (h : s.Follows t)
    (hitems : Gives (visitTopLevel items) t () t') : s.Follows t'

theorem State.Reached.members (hs : s.Reached sourceName)
    (hitems : Gives (visitTopLevel items) s () s') : s'.Reached sourceName := by
  cases hs with
  | start => exact .call .start hitems
  | call hs h => exact .call hs (gives_visitTopLevel_append.mpr ⟨s, h, hitems⟩)

theorem State.Follows.reached (hs : s.Reached sourceName) (h : s.Follows t) :
    t.Reached sourceName ∧ s.Advances t := by
  induction h with
  | refl => exact ⟨hs, hs.advances⟩
  | call _ ih => exact ⟨.call ih.1 (gives_visitTopLevel_nil.mpr rfl), ih.2.congr rfl rfl⟩
  | members _ hitems ih => exact ⟨ih.1.members hitems, ih.2.members ih.1.steady hitems⟩

/-- Function `fn'` is what function `fn` has become: its type is the same, and it has not changed if
it had a body. -/
structure Kept (fn fn' : Func) : Prop where
  name : fn'.name = fn.name
  ret : fn'.ret = fn.ret
  params : fn'.params.map (·.ty) = fn.params.map (·.ty)
  body : fn.blocks ≠ [] → fn' = fn

theorem State.Advances.kept (hs : s.Reached sourceName) (h : s.Advances t) {i : Nat}
    (hfn : s.module.funcs[i]? = some fn) : ∃ fn', t.module.funcs[i]? = some fn' ∧ Kept fn fn' := by
  obtain ⟨names, hnames⟩ := h.order
  obtain ⟨kept, new, heq, hkept, -⟩ : ∃ kept new, t.module.funcs = kept ++ new ∧
      List.Forall₂ Kept s.module.funcs kept ∧ new.map (·.name) = names := by
    refine Module.aligned hs.found h.found hnames.symm fun name fn hfn => ?_
    obtain ⟨fn', hfn', hret, htypes, hsame⟩ := h.funcs name fn hfn
    refine ⟨fn', hfn', (Module.func?_name hfn').trans (Module.func?_name hfn).symm, hret, htypes,
      fun hblocks => hsame ?_⟩
    by_contra hnot
    exact hblocks (hs.steady.bodiless name fn hfn hnot)
  obtain ⟨fn', hfn', hrel⟩ := eq_some_of_rel (rel_getElem? hkept i) hfn
  refine ⟨fn', ?_, hrel⟩
  rw [heq, List.getElem?_append_left (List.getElem?_eq_some_iff.mp hfn').1, hfn']

/-- From a state between two members, over any number of further members and calls and at each point
of the way: no two functions have one name, no two variables have, and no function has the name of a
variable. The functions are still there, each in its place and with its type, and a function with a
body has not changed at all. Inside a definition, once its function is declared, and at the end of
the definition, the functions and their types are the same. -/
theorem symbols_kept {t' : State} (hs : s.Reached sourceName) (ht : s.Follows t)
    (ht' : t.Passes t') :
    t'.module.Consistent ∧ s.module.globals <+: t'.module.globals ∧
      (∀ (i : Nat) (fn : Func), s.module.funcs[i]? = some fn →
        ∃ fn', t'.module.funcs[i]? = some fn' ∧ Kept fn fn') ∧
      ∀ (n : Node) (p q : State), t.Inside n p →
        t.Inside n q ∨ Gives (visitTopLevel [some n]) t () q →
          q.module.types = p.module.types := by
  obtain ⟨hreached, hadvances⟩ := ht.reached hs
  have hadvances' := hadvances.trans (ht'.advances hreached)
  exact ⟨hadvances'.consistent, hadvances'.global, fun i fn hfn => hadvances'.kept hs hfn,
    fun n p q hp hq => hp.types hreached hq⟩

theorem falling_keeps_symbols :
    ∃ (s t : State) (fn : Func), s.Reached "a.c" ∧ s.Follows t ∧ t.rejections.length = 1 ∧
    s.module.funcs[1]? = some fn ∧ fn.blocks ≠ [] ∧ t.module.Consistent ∧
      t.module.funcs[1]? = some fn := by
  have hcheck : (match (visitTopLevel outset (State.start "a.c") : Except Stop Unit × State) with
      | (.error _, _) => false
      | (.ok _, s) => s.module.funcs[1]?.any (!·.blocks.isEmpty) &&
        match (visitTopLevel [some falling] s : Except Stop Unit × State) with
        | (.error _, _) => false
        | (.ok _, t) => t.rejections.length = 1) = true := by decide +kernel
  rcases hrun : (visitTopLevel outset (State.start "a.c") : Except Stop Unit × State)
    with ⟨e | u, s⟩
  · simp [hrun] at hcheck
  · simp only [hrun, Bool.and_eq_true, Option.any_eq_true, Bool.not_eq_true',
      List.isEmpty_eq_false_iff] at hcheck
    obtain ⟨⟨fn, hfn, hblocks⟩, hmore⟩ := hcheck
    split at hmore
    next => cases hmore
    next t hmembers =>
      have hreached : s.Reached "a.c" := .call (s := State.start "a.c") .start hrun
      have hfollows : s.Follows t := .members .refl hmembers
      obtain ⟨hconsistent, -, hkept, -⟩ := symbols_kept hreached hfollows .start
      obtain ⟨fn', hfn', hsame⟩ := hkept 1 fn hfn
      exact ⟨s, t, fn, hreached, hfollows, of_decide_eq_true hmore, hfn, hblocks, hconsistent,
        hsame.body hblocks ▸ hfn'⟩

end Lowering

end CSubset
