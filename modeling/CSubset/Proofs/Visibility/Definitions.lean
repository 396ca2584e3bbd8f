import CSubset.Proofs.Lowering.Symbols
import CSubset.Proofs.Lowering.Verdicts
import CSubset.Proofs.Visibility.Nodes

/-!
# Two versions of one definition

Two definitions of a function of one name and one type may differ in the body and in the names of
the parameters. In states that differ in nothing but functions that both have begun to define
(`State.Beside`), both versions are begun or none is: whether a body is begun depends on the name
and the type only. So the states behind the two versions are of this kind again, and so they are
behind two members of one shape (`State.Beside.member`), although the two may have ended in
different ways.

What may differ for good is what a name stands for: a variable of a function can take a name away
from a function or a global variable (`State.hidden`). Where it does not, the states agree about the
name (`State.Beside.agrees`).
-/

namespace CSubset.Lowering

open IR (Ty Value Func Param Module)
open Node (Like SameShape)

variable {odd : Licence} {used : String → Prop} {s s' t t' : State} {n n' : Node} {name : String}
  {sig : Signature} {m : Module}

/-! ## Types of functions -/

/-- The name and the type of the function that a node defines, where the type is one that functions
can have. -/
def functionType? : Node → Option (String × Ty × List Ty)
  | .ternary _ .definition ret (some (.unary _ (.signature name) params)) (some _) =>
    (Signature.ofNodes? ret params).map fun sig => (name, sig.ret, sig.params.map (·.ty))
  | _ => none

theorem functionType?_eq_some {ret : Ty} {types : List Ty}
    (h : functionType? n = some (name, ret, types)) :
    ∃ stamp place type params body sig,
      n = .ternary stamp .definition type
        (some (.unary place (.signature name) params)) (some body) ∧
      Signature.ofNodes? type params = some sig ∧ sig.ret = ret ∧
        sig.params.map (·.ty) = types := by
  unfold functionType? at h
  split at h
  next stamp type place func params body =>
    obtain ⟨sig, hsig, heq⟩ := Option.map_eq_some_iff.mp h
    obtain ⟨rfl, hret, htypes⟩ : func = name ∧ sig.ret = ret ∧ sig.params.map (·.ty) = types := by
      simpa using heq
    exact ⟨stamp, place, type, params, body, sig, rfl, hsig, hret, htypes⟩
  next => cases h

section

variable {R : Pos → Pos → Prop}

theorem ofParam?_like {c d : Option Node} {x : Variable} (hlike : Option.Rel (Like R) c d)
    (hx : Variable.ofParam? c = some x) :
    ∃ y, Variable.ofParam? d = some y ∧ y.param = x.param := by
  obtain ⟨stamp, place, isConst, place', stars, rfl, htag, -⟩ := Variable.ofParam?_eq_some hx
  obtain ⟨_, rfl, hdeclaration⟩ := eq_some_of_rel hlike rfl
  cases hdeclaration with
  | binary _ hleft hright =>
    obtain ⟨_, rfl, htype⟩ := eq_some_of_rel hleft rfl
    obtain ⟨_, rfl, hnames⟩ := eq_some_of_rel hright rfl
    cases htype
    cases hnames
    exact ⟨_, if_pos htag, rfl⟩

theorem ofParams?_like {cs ds : List (Option Node)} {xs : List Variable}
    (hlike : List.Forall₂ (Option.Rel (Like R)) cs ds) (hxs : cs.mapM Variable.ofParam? = some xs) :
    ∃ ys, ds.mapM Variable.ofParam? = some ys ∧ ys.map Variable.param = xs.map Variable.param := by
  induction hlike generalizing xs with
  | nil =>
    obtain rfl : [] = xs := by simpa using hxs
    exact ⟨[], rfl, rfl⟩
  | cons hfirst _ ih =>
    simp only [List.mapM_cons, Option.bind_eq_bind, Option.bind_eq_some_iff, Option.pure_def,
      Option.some.injEq] at hxs ⊢
    obtain ⟨x, hx, rest, hrest, rfl⟩ := hxs
    obtain ⟨y, hy, hparam⟩ := ofParam?_like hfirst hx
    obtain ⟨ys, hys, hparams⟩ := ih hrest
    exact ⟨y :: ys, ⟨y, hy, ys, hys, rfl⟩, by rw [List.map_cons, List.map_cons, hparam, hparams]⟩

theorem ofNodes?_like {ret ret' params params' : Option Node} (hret : Option.Rel (Like R) ret ret')
    (hparams : Option.Rel (Like R) params params')
    (hsig : Signature.ofNodes? ret params = some sig) :
    ∃ sig', Signature.ofNodes? ret' params' = some sig' ∧ sig'.ret = sig.ret ∧
      sig'.params = sig.params := by
  unfold Signature.ofNodes? at hsig
  split at hsig
  next stamp tag isConst =>
    obtain ⟨xs, hxs, rfl⟩ := Option.map_eq_some_iff.mp hsig
    obtain ⟨_, rfl, hlike⟩ := eq_some_of_rel hret rfl
    cases hlike
    obtain ⟨ys, hys, heq⟩ := ofParams?_like (paramNodes_like hparams) hxs
    exact ⟨_, Option.map_eq_some_iff.mpr ⟨ys, hys, rfl⟩, rfl, heq⟩
  next => cases hsig

end

/-- Definitions of one shape define functions of one type. -/
theorem functionType?_like (hlike : SameShape n n') : functionType? n = functionType? n' := by
  have hkept : ∀ {n n' : Node}, SameShape n n' → ∀ type, functionType? n = some type →
      functionType? n' = some type := by
    rintro n n' hlike ⟨name, ret, types⟩ htype
    obtain ⟨stamp, place, type, params, body, sig, rfl, hsig, rfl, rfl⟩ :=
      functionType?_eq_some htype
    cases hlike with
    | ternary _ hret hsecond hthird =>
      obtain ⟨_, rfl, hsignature⟩ := eq_some_of_rel hsecond rfl
      obtain ⟨_, rfl, -⟩ := eq_some_of_rel hthird rfl
      cases hsignature with
      | unary _ hparams =>
        obtain ⟨sig', hsig', hsigRet, hsigParams⟩ := ofNodes?_like hret hparams hsig
        refine Option.map_eq_some_iff.mpr ⟨sig', hsig', ?_⟩
        rw [hsigRet, hsigParams]
  have hback : SameShape n' n := Node.sameShape_iff.mp (Node.sameShape_iff.mpr hlike).symm
  refine Option.ext fun type => ⟨?_, ?_⟩
  · exact hkept hlike type
  · exact hkept hback type

/-! ## States between members -/

/-- The states differ in nothing but functions that both have begun to define, and in what names
stand for. -/
def State.Beside (s t : State) : Prop :=
  s.Twins ⟨(· ∈ s.defined), True, fun _ _ => True⟩ (fun _ => False) t

theorem State.Twins.beside (h : s.Twins odd used t) : s.Beside t :=
  { h.narrow fun _ => False.elim with
    others := fun name hname => h.others name fun hodd => hname (h.ended name hodd)
    ended := fun _ hname => hname
    near := .inl trivial }

theorem State.Steady.owner (hs : s.Steady) (x : String) (slot : Value) (func : String)
    (hmem : (x, .var slot (some func)) ∈ s.symbols) : func ∈ s.defined := by
  rcases hs.owned x slot (some func) hmem with ⟨hnone, -⟩ | ⟨other, hother, heq⟩
  · cases hnone
  · exact Option.some.inj heq ▸ hother

/-- A state between members is its own twin, if nothing is reported yet. -/
theorem State.Steady.twins (hs : s.Steady) (R : Pos → Pos → Prop)
    (hreports : s.warnings = [] ∧ s.rejections = []) :
    s.Twins ⟨fun _ => False, False, R⟩ used s where
  frame := rfl
  scope := rfl
  defined := rfl
  globals := rfl
  funcs name := by
    cases s.module.func? name with
    | none => exact .none
    | some fn => exact .some (.refl fn)
  others _ _ := rfl
  ended _ h := h.elim
  declared := hs.declared
  current := by simp [hs.frame]
  owned := hs.owner
  symbols _ _ := .inl rfl
  near := by
    refine .inr ⟨rfl, ?_, ?_⟩
    · rw [hreports.1]
      exact .nil
    · rw [hreports.2]
      exact .nil

theorem State.Beside.symm (h : s.Beside t) (ht : t.Steady) : t.Beside s where
  frame := h.frame.symm
  scope := h.scope.symm
  defined := h.defined.symm
  globals := h.globals.symm
  funcs name := by
    rcases rel_cases (h.funcs name) with ⟨hs, ht⟩ | ⟨fn, fn', hs, ht, hsame⟩
    · rw [hs, ht]
      exact .none
    · rw [hs, ht]
      exact .some ⟨hsame.name.symm, hsame.ret.symm, hsame.params.symm⟩
  others name hname := (h.others name (h.defined ▸ hname)).symm
  ended _ hname := hname
  declared := ht.declared
  current := by simp [ht.frame]
  owned := ht.owner
  symbols x hx := by
    rcases hx with hx | ⟨_, _, -, hframe⟩
    · exact hx.elim
    · simp [ht.frame] at hframe
  near := .inl trivial

/-! ## Versions

Two definitions of one function, with one type. The members behind them may tell them apart only by
the names that they hide. -/

/-- Of two versions of a definition, both are begun or none. -/
theorem State.Begins.transfer (h : s.Beside t) (hbegins : s.Begins n name sig m)
    (htype : functionType? n = functionType? n') :
    ∃ sig' m', t.Begins n' name sig' m' ∧ sig'.ret = sig.ret ∧
      sig'.params.map (·.ty) = sig.params.map (·.ty) := by
  obtain ⟨stamp, place, ret, params, body, rfl, hsig, hglobal, hdecl⟩ := hbegins
  have hn' : functionType? n' = some (name, sig.ret, sig.params.map (·.ty)) := by
    rw [← htype]
    show (Signature.ofNodes? ret params).map _ = _
    rw [hsig, Option.map_some]
  obtain ⟨stamp', place', ret', params', body', sig', rfl, hsig', hret, htypes⟩ :=
    functionType?_eq_some hn'
  rw [← h.hasGlobal] at hglobal
  have hfunc : t.module.func? name = s.module.func? name := h.others name (h.not_mem_defined hdecl)
  obtain ⟨m', hdecl'⟩ : ∃ m', DeclaresFunction t.defined name sig' true t.module m' := by
    cases hdecl with
    | first hnone => exact ⟨_, .first (hfunc.trans hnone)⟩
    | again fn hfn hdef hsame =>
      refine ⟨_, .again fn (hfunc.trans hfn) (h.defined ▸ hdef) ?_⟩
      unfold sameSignature at hsame ⊢
      rwa [hret, htypes]
  exact ⟨sig', m',
    ⟨stamp', place', ret', params', body', rfl, hsig', hglobal, hdecl'⟩, hret, htypes⟩

/-- The states behind two versions of a definition that was begun differ in that function, and
perhaps in names. -/
theorem State.Begun.beside {sig' : Signature} {m' : Module} (h : s.Beside t) (hs : s'.Steady)
    (ht : t'.Steady) (hbegun : s.Begun name sig m s') (hbegun' : t.Begun name sig' m' t')
    (hret : sig'.ret = sig.ret) (htypes : sig'.params.map (·.ty) = sig.params.map (·.ty)) :
    s'.Beside t' where
  frame := by rw [hs.frame, ht.frame]
  scope := by rw [hs.scope, ht.scope]
  defined := by rw [hbegun.defined, hbegun'.defined, h.defined]
  globals := by rw [hbegun.globals, hbegun'.globals, h.globals]
  funcs other := by
    by_cases hother : other = name
    · obtain ⟨fn, hfn, hfnRet, hfnTypes⟩ := hbegun.func
      obtain ⟨fn', hfn', hfnRet', hfnTypes'⟩ := hbegun'.func
      rw [hother, hfn, hfn']
      refine .some ⟨?_, ?_, ?_⟩
      · rw [Module.func?_name hfn, Module.func?_name hfn']
      · rw [hfnRet, hfnRet', hret]
      · rw [hfnTypes, hfnTypes', htypes]
    · rw [hbegun.others other hother, hbegun'.others other hother]
      exact h.funcs other
  others other hother := by
    -- a function that is not defined yet is the same in both
    have hother : other ∉ s'.defined := hother
    rw [hbegun.defined, List.mem_cons, not_or] at hother
    rw [hbegun.others other hother.1, hbegun'.others other hother.1]
    exact h.others other hother.2
  ended _ hfunc := hfunc
  declared := hs.declared
  current := by simp [hs.frame]
  owned := hs.owner
  symbols x hx := by
    rcases hx with hx | ⟨_, _, -, hframe⟩
    · exact hx.elim
    · simp [hs.frame] at hframe
  near := .inl trivial

/-- Behind two versions of a definition, whether they were accepted or not. -/
theorem State.Beside.versions (h : s.Beside t) (hs : s.Steady) (ht : t.Steady)
    (hkind : n.kind = .definition) (hkind' : n'.kind = .definition)
    (htype : functionType? n = functionType? n') (hmember : s.Member n s')
    (hmember' : t.Member n' t') : s'.Beside t' := by
  by_cases hbegins : ∃ name sig m, s.Begins n name sig m
  · obtain ⟨name, sig, m, hbegins⟩ := hbegins
    obtain ⟨sig', m', hbegins', hret, htypes⟩ := hbegins.transfer h htype
    exact (hmember.begun hbegins).beside h (hmember.steady hs).1 (hmember'.steady ht).1
      (hmember'.begun hbegins') hret
      htypes
  · have hnot : ∀ name sig m, ¬s.Begins n name sig m :=
      fun name sig m hb => hbegins ⟨name, sig, m, hb⟩
    have hnot' : ∀ name sig m, ¬t.Begins n' name sig m := by
      intro name sig m hb
      obtain ⟨sig', m', hb', -⟩ := hb.transfer (h.symm ht) htype.symm
      exact hnot name sig' m' hb'
    obtain ⟨ws, rs, rfl⟩ := hmember.reported hkind hnot
    obtain ⟨ws', rs', rfl⟩ := hmember'.reported hkind' hnot'
    exact (h.reports (.inl trivial)).beside

/-- Two members of one shape, or two versions of one definition. -/
inductive Match : Node → Node → Prop where
  | like {n n' : Node} (h : SameShape n n') : Match n n'
  | versions {n n' : Node} (hn : n.kind = .definition) (hn' : n'.kind = .definition)
    (htype : functionType? n = functionType? n') : Match n n'

/-- Declarations of variables and functions use no names from outside. -/
theorem parallel_declarations (h : s.Twins odd used t) (hlike : Like odd.near n n')
    (hkind : n.kind ≠ .definition) :
    Parallel odd used (visitItem n) (visitItem n') s t := by
  unfold visitItem
  rw [hlike.kind]
  split
  next hdef => exact absurd hdef hkind
  next hforward =>
    refine (parallel_visit hlike used ?_ h (.inl (by simp [hforward]))).bind
      fun _ _ _ _ _ h => .pure h
    simp [Tree.free_of_kind (.inl hforward)]
  next hdeclaration =>
    refine (parallel_visit hlike used ?_ h (.inl (by simp [hdeclaration]))).bind
      fun _ _ _ _ _ h => .pure h
    simp [Tree.free_of_kind (.inr hdeclaration)]
  next => exact .rejectAt hlike.samePlace h

theorem State.Beside.member (h : s.Beside t) (hs : s.Steady) (ht : t.Steady) (hmatch : Match n n')
    (hn : Gives (recording (visitItem n)) s () s')
    (hn' : Gives (recording (visitItem n')) t () t') : s'.Beside t' := by
  have hmember := gives_member hs.frame hs.scope hn
  have hmember' := gives_member ht.frame ht.scope hn'
  cases hmatch with
  | versions hkind hkind' htype => exact h.versions hs ht hkind hkind' htype hmember hmember'
  | like hlike =>
    by_cases hkind : n.kind = .definition
    · exact h.versions hs ht hkind (hlike.kind.trans hkind) (functionType?_like hlike)
        hmember hmember'
    · cases parallel_recording (parallel_declarations h hlike hkind) with
      | gives hx hy htwins =>
        obtain ⟨-, rfl⟩ := hn.unique hx
        obtain ⟨-, rfl⟩ := hn'.unique hy
        exact htwins.beside
      | stops hx _ _ _ => exact absurd hx hn.not_stops

theorem State.Beside.members {ns ns' : List (Option Node)}
    (hmatch : List.Forall₂ (Option.Rel Match) ns ns') (h : s.Beside t) (hs : s.Steady)
    (ht : t.Steady) (hns : Gives (visitTopLevel ns) s () s')
    (hns' : Gives (visitTopLevel ns') t () t') : s'.Beside t' := by
  induction hmatch generalizing s t with
  | nil =>
    obtain rfl := gives_visitTopLevel_nil.mp hns
    obtain rfl := gives_visitTopLevel_nil.mp hns'
    exact h
  | cons hfirst _ ih =>
    cases hfirst with
    | none => simp [visitTopLevel] at hns
    | some hmatch =>
      rw [visitTopLevel_some, gives_bind] at hns hns'
      obtain ⟨_, s₁, hn, hrest⟩ := hns
      obtain ⟨_, t₁, hn', hrest'⟩ := hns'
      exact ih (h.member hs ht hmatch hn hn') ((gives_member hs.frame hs.scope hn).steady hs).1
        ((gives_member ht.frame ht.scope hn').steady ht).1 hrest hrest'

/-! ## Hidden names -/

/-- Whether a function or a global variable cannot be used under its name, because the name stands
for a variable of some function. -/
def State.hidden (s : State) (x : String) : Bool :=
  (s.module.hasFunc x || s.module.hasGlobal x) &&
    match s.symbol? x with
    | some (.var _ (some _)) => true
    | _ => false

/-- Between members, a name stands for the function or the global variable of this name, unless it
is hidden or there is none. -/
theorem State.Named.symbol?_cases (hnamed : s.Named) (hs : s.Steady) (x : String) :
    (x ∈ s.module.funcNames ∧ s.hidden x = false ∧ s.symbol? x = some .func) ∨
      (x ∈ s.module.globalNames ∧ s.hidden x = false ∧
        s.symbol? x = some (.var (.global x .i32) none)) ∨
      (s.Hides x ∧ (x ∈ s.module.funcNames ∨ x ∈ s.module.globalNames → s.hidden x = true)) := by
  cases hsym : s.symbol? x with
  | none =>
    refine .inr (.inr ⟨fun sym h => absurd (hsym.symm.trans h) nofun, fun hx => ?_⟩)
    obtain ⟨sym, hmem⟩ := hnamed.bound x hx
    exact absurd hsym (State.symbol?_ne_none hmem)
  | some sym =>
    have hmem := State.mem_symbols hsym
    rcases sym with _ | ⟨slot, _ | func⟩
    · exact .inl ⟨hnamed.func x hmem, by simp [State.hidden, hsym], rfl⟩
    · rcases hs.owned x slot none hmem with ⟨-, rfl, hglobal⟩ | ⟨_, -, hnone⟩
      · exact .inr (.inl ⟨Module.hasGlobal_iff.mp hglobal, by simp [State.hidden, hsym], rfl⟩)
      · cases hnone
    · refine .inr (.inr ⟨?_, fun hx => ?_⟩)
      · intro sym hsym'
        obtain rfl := Option.mem_unique hsym hsym'
        exact ⟨slot, func, rfl, hs.owner x slot func hmem, by simp [hs.frame]⟩
      · rw [← Module.hasFunc_iff, ← Module.hasGlobal_iff, ← Bool.or_eq_true_iff] at hx
        simp only [State.hidden, hx, hsym, Bool.and_self]

/-- The states agree about a name that is hidden in both or in none. -/
theorem State.Beside.agrees (h : s.Beside t) (hs : s.Steady) (ht : t.Steady) (hsnamed : s.Named)
    (htnamed : t.Named) {x : String} (hx : s.hidden x = t.hidden x) : s.Agrees t x := by
  have hfunc : x ∈ t.module.funcNames ↔ x ∈ s.module.funcNames := by
    rw [← Module.hasFunc_iff, h.hasFunc, Module.hasFunc_iff]
  have hglobal : x ∈ t.module.globalNames ↔ x ∈ s.module.globalNames := by
    rw [← Module.hasGlobal_iff, h.hasGlobal, Module.hasGlobal_iff]
  rcases hsnamed.symbol?_cases hs x with ⟨hxs, hseen, hsym⟩ | ⟨hxs, hseen, hsym⟩ | ⟨hides, hhidden⟩
  · rcases htnamed.symbol?_cases ht x with ⟨-, -, hsym'⟩ | ⟨hxt, -, -⟩ | ⟨-, hhidden'⟩
    · exact .inl (hsym'.trans hsym.symm)
    · exact absurd (hglobal.mp hxt) (hsnamed.apart x hxs)
    · exact absurd (hx.symm.trans hseen) (by simp [hhidden' (.inl (hfunc.mpr hxs))])
  · rcases htnamed.symbol?_cases ht x with ⟨hxt, -, -⟩ | ⟨-, -, hsym'⟩ | ⟨-, hhidden'⟩
    · exact absurd hxs (hsnamed.apart x (hfunc.mp hxt))
    · exact .inl (hsym'.trans hsym.symm)
    · exact absurd (hx.symm.trans hseen) (by simp [hhidden' (.inr (hglobal.mpr hxs))])
  · rcases htnamed.symbol?_cases ht x with ⟨hxt, hseen', -⟩ | ⟨hxt, hseen', -⟩ | ⟨hides', -⟩
    · exact absurd (hx.trans hseen') (by simp [hhidden (.inl (hfunc.mp hxt))])
    · exact absurd (hx.trans hseen') (by simp [hhidden (.inr (hglobal.mp hxt))])
    · exact .inr ⟨hides, hides'⟩

end CSubset.Lowering
