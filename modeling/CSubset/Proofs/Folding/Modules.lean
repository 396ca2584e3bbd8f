import CSubset.Proofs.Folding.Lockstep
import CSubset.Proofs.Folding.Meaning

/-!
# Raw and folded modules agree in shape

The members of a program and of its folded copy are lowered in lockstep: signatures are read from
leaves, which folding keeps, and bodies go along by `lowers_of_folded`. Main statement:
`build_fold_thinned`.

The converse fails: a shift by a sum of constants is rejected, and accepted once the sum is folded.
-/

namespace CSubset.IR.Module.Thinned

variable {m m' : Module}

theorem func? (h : m.Thinned m') (name : String) :
    Option.Rel Func.Thinned (m.func? name) (m'.func? name) :=
  rel_find? (fun f g hfg => by rw [hfg.name]) h.funcs

theorem hasGlobal (h : m.Thinned m') (name : String) : m'.hasGlobal name = m.hasGlobal name := by
  unfold Module.hasGlobal
  rw [h.globals]

theorem hasFunc (h : m.Thinned m') (name : String) : m'.hasFunc name = m.hasFunc name := by
  unfold Module.hasFunc
  have hfuncs := h.funcs
  generalize m.funcs = fs at hfuncs
  generalize m'.funcs = gs at hfuncs
  induction hfuncs with
  | nil => rfl
  | cons hfirst _ ih => rw [List.any_cons, List.any_cons, hfirst.name, ih]

theorem addGlobal (h : m.Thinned m') (g : Global) : (m.addGlobal g).Thinned (m'.addGlobal g) :=
  { h with globals := congrArg (· ++ [g]) h.globals }

theorem addFunc {f g : Func} (h : m.Thinned m') (hfg : f.Thinned g) :
    (m.addFunc f).Thinned (m'.addFunc g) :=
  { h with funcs := List.rel_append h.funcs (.cons hfg .nil) }

theorem modifyFunc {change change' : Func → Func} (h : m.Thinned m') (name : String)
    (hchange : ∀ f g, f.Thinned g → (change f).Thinned (change' g)) :
    (m.modifyFunc name change).Thinned (m'.modifyFunc name change') := by
  refine { h with funcs := List.rel_map (fun f g hfg => ?_) h.funcs }
  show Func.Thinned (if f.name = name then change f else f) (if g.name = name then change' g else g)
  rw [hfg.name]
  split
  · exact hchange f g hfg
  · exact hfg

end CSubset.IR.Module.Thinned

namespace CSubset.Lowering

open IR Node

variable {s s' t : State} {name func : String} {index : Nat}
  {m n params params' ret ret' : Option Node} {ms ns : List (Option Node)} {sig : Signature}
  {u : Unit} {x : Variable}

/-! ## Signatures -/

theorem ofParam?_folded (h : Option.Rel Folded n m)
    (hx : Variable.ofParam? n = some x) : Variable.ofParam? m = some x := by
  obtain ⟨stamp, place, isConst, place', stars, rfl, hty, hwarnings⟩ := Variable.ofParam?_eq_some hx
  obtain ⟨m, rfl, hcopy⟩ := eq_some_of_rel h rfl
  cases hcopy with
  | binary _ htype hname _ =>
    obtain ⟨type', rfl, htype'⟩ := eq_some_of_rel htype rfl
    obtain ⟨name', rfl, hname'⟩ := eq_some_of_rel hname rfl
    cases htype' with
    | leaf hpos =>
      cases hname' with
      | leaf _ =>
        rw [← hx]
        simp only [Variable.ofParam?, typeWarnings_pos _ hpos]
  | constant _ _ _ hv =>
    obtain ⟨_, _, _, _, _, hform, -⟩ := BinaryForm.constant?_eq_some.mp hv
    cases hform

theorem paramNodes_folded (h : Option.Rel Folded n m) :
    FoldedItems (paramNodes n) (paramNodes m) := by
  cases h with
  | none => exact .nil
  | some h =>
    cases h with
    | @seq _ _ form _ _ _ hitems =>
      cases form with
      | parameters => exact hitems
      | program => exact .nil
      | block => exact .nil
    | _ => exact .nil

theorem mapM_ofParam?_folded {xs : List Variable} (h : FoldedItems ns ms)
    (hxs : ns.mapM Variable.ofParam? = some xs) : ms.mapM Variable.ofParam? = some xs := by
  induction h generalizing xs with
  | nil => exact hxs
  | cons hfirst _ ih =>
    rw [List.mapM_cons] at hxs ⊢
    obtain ⟨x, hx, hxs⟩ := Option.bind_eq_some_iff.mp hxs
    obtain ⟨rest, hrest, hxs⟩ := Option.bind_eq_some_iff.mp hxs
    rw [ofParam?_folded hfirst hx, ih hrest]
    exact hxs

theorem signature_folded (hret : Option.Rel Folded ret ret')
    (hparams : Option.Rel Folded params params') (h : Signature.ofNodes? ret params = some sig) :
    Signature.ofNodes? ret' params' = some sig := by
  unfold Signature.ofNodes? at h
  split at h
  · next stamp tag isConst =>
    obtain ⟨xs, hxs, hsig⟩ := Option.map_eq_some_iff.mp h
    obtain ⟨type, rfl, hcopy⟩ := eq_some_of_rel hret rfl
    cases hcopy with
    | leaf hpos =>
      have hxs' := mapM_ofParam?_folded (paramNodes_folded hparams) hxs
      simp only [Signature.ofNodes?, hxs', Option.map_some, typeWarnings_pos _ hpos, hsig]
  · cases h

/-! ## Functions -/

/-- Declaring a function does not look at bodies. -/
theorem declaresFunction_thinned {defined : List String} {isDef : Bool}
    {m m' m₁ : Module} (h : DeclaresFunction defined name sig isDef m m₁) (hm : m.Thinned m') :
    ∃ m₁', DeclaresFunction defined name sig isDef m' m₁' ∧ m₁.Thinned m₁' := by
  cases h with
  | first hnone =>
    have hfn : Func.Thinned ⟨name, sig.ret, sig.params, []⟩ ⟨name, sig.ret, sig.params, []⟩ :=
      ⟨rfl, rfl, rfl, .nil⟩
    exact ⟨_, .first (eq_none_of_rel (hm.func? name) hnone), hm.addFunc hfn⟩
  | again fn hfn hdef hsame =>
    obtain ⟨fn', hfn', hthin⟩ := eq_some_of_rel (hm.func? name) hfn
    have hsame' : sameSignature fn' sig.ret sig.params = true := by
      unfold sameSignature at hsame ⊢
      rw [hthin.ret, hthin.params]
      exact hsame
    refine ⟨_, .again fn' hfn' hdef hsame', ?_⟩
    split
    · exact hm.modifyFunc name fun f g hfg => { hfg with params := rfl }
    · exact hm

theorem opened_alike {fn fn' : Func} (hst : s.Alike t) (hfn : fn.Thinned fn') :
    (s.opened name fn).AlikeInside (t.opened name fn') := by
  obtain ⟨names, hnames⟩ := Frame.renameParams_frame ⟨name, fn.ret, [], none, [], 0⟩ fn.params
  have hframe : (Frame.renameParams ⟨name, fn.ret, [], none, [], 0⟩ fn.params).2.Alike
      (Frame.renameParams ⟨name, fn.ret, [], none, [], 0⟩ fn.params).2 := by
    rw [hnames]
    exact ⟨rfl, rfl, rfl, rfl, .nil⟩
  unfold State.opened
  rw [hfn.ret, hfn.params]
  refine ⟨?_, by simp⟩
  exact {
    hst with
    module := hst.module.modifyFunc name fun f g hfg => { hfg with params := rfl }
    defined := congrArg (name :: ·) hst.defined
    frame := .some ((hframe.addBlock "entry").moveTo (some 0)) }

theorem storeParam_alike {p : Param} {f g : Frame} {i : Nat} {b c : Block}
    (hst : s.Alike t) (hfg : f.Alike g) (hbc : b.Thinned c) :
    (s.storeParam func index p f i b).AlikeInside (t.storeParam func index p g i c) := by
  have hslot : Symbol.Alike (.var (.result f.count (.ptr p.ty)) (some func))
      (.var (.result g.count (.ptr p.ty)) (some func)) := .var rfl
  have halloca : (Op.alloca (g.freshName (p.name ++ ".addr")) p.ty 4).shape =
      (Op.alloca (f.freshName (p.name ++ ".addr")) p.ty 4).shape := by
    rw [hfg.freshName]
  have hframe := ((hfg.useName (p.name ++ ".addr")).push (i := i) hbc halloca).push (i := i)
    (hbc.concat halloca f.count g.count)
    (show (Op.store (.param index p.ty) (.result g.count (.ptr p.ty))).shape =
      (Op.store (.param index p.ty) (.result f.count (.ptr p.ty))).shape from rfl)
  exact ⟨{ hst.bind p.name hslot with frame := .some hframe }, by simp [State.storeParam]⟩

theorem storeParams_alike {ps : List Param}
    (h : Gives (storeParams func index ps) s u s') (hst : s.AlikeInside t) :
    ∃ t', Gives (storeParams func index ps) t u t' ∧ s'.AlikeInside t' := by
  induction ps generalizing s t index with
  | nil =>
    obtain rfl := gives_storeParams_nil.mp h
    exact ⟨t, gives_storeParams_nil.mpr rfl, hst⟩
  | cons p ps ih =>
    obtain ⟨f, i, b, hf, hb, hrest⟩ := gives_storeParams_cons.mp h
    obtain ⟨g, hg, hfg⟩ := hst.frame_eq_some hf
    obtain ⟨c, hc, hbc⟩ := hfg.filling hb
    obtain ⟨t', hrest', hst'⟩ := ih hrest (storeParam_alike hst.toAlike hfg hbc)
    exact ⟨t', gives_storeParams_cons.mpr ⟨g, i, c, hg, hc, hrest'⟩, hst'⟩

theorem bodyItems_folded {n m : Node} (h : Folded n m) :
    FoldedItems (bodyItems n) (bodyItems m) := by
  cases h with
  | @seq _ _ form _ _ _ hitems =>
    cases form with
    | block => exact hitems
    | program => exact .nil
    | parameters => exact .nil
  | _ => exact .nil

/-- The body of the copy is lowered in lockstep, and so the function is defined in both modules. -/
theorem defines_alike {items items' : List (Option Node)} (hret : Option.Rel Folded ret ret')
    (hparams : Option.Rel Folded params params') (hitems : FoldedItems items items')
    (h : s.Defines ret name params items s') (hst : s.Alike t) :
    ∃ t', t.Defines ret' name params' items' t' ∧ s'.Alike t' := by
  obtain ⟨sig, m, fn, s₁, s₂, f, hsig, hglobal, hdeclares, hfn, hstore, hbody, hf,
      hreturns, hflow, rfl⟩ :=
    h
  obtain ⟨m', hdeclares', hm⟩ := declaresFunction_thinned hdeclares hst.module
  obtain ⟨fn', hfn', hthin⟩ := eq_some_of_rel (hm.func? name) hfn
  -- the signature is declared, and the first block is opened
  have hdeclared : State.Alike ({ s with scope := name }.declareFunction name sig m)
      ({ t with scope := name }.declareFunction name sig m') :=
    { (hst.warned sig.warnings).bind name .func with module := hm, scope := rfl }
  -- the parameters are stored, and the statements are lowered
  obtain ⟨t₁, hstore', hst₁⟩ := storeParams_alike hstore (opened_alike hdeclared hthin)
  have hlowers : List.Forall₂ (Both Lowers) items items' :=
    hitems.imp fun _ _ h => .of_folded lowers_of_folded h
  obtain ⟨t₂, hbody', hst₂⟩ := visitStatements_alike hlowers hbody hst₁
  obtain ⟨g, hg, hfg⟩ := hst₂.frame_eq_some hf
  -- the body has its end
  have hend : (f.endWith (.ret none)).Alike (g.endWith (.ret none)) := hfg.endWith rfl
  have hreturns' : g.isOpen = true → g.ret = .void := by
    rw [hfg.isOpen, hfg.ret]
    exact hreturns
  have hflow' : Flow.defect? (g.endWith (.ret none)).blocks = none := by
    rw [Flow.defect?_thinned hend.blocks, hflow]
  have hmodule :
    (s₂.module.modifyFunc f.func fun fn =>
    { fn with blocks := (f.endWith (.ret none)).blocks }).Thinned
      (t₂.module.modifyFunc g.func fun fn =>
          { fn with blocks := (g.endWith (.ret none)).blocks }) := by
    rw [hfg.func]
    exact hst₂.module.modifyFunc f.func fun _ _ h => { h with blocks := hend.blocks }
  refine ⟨_, ⟨sig, m', fn', t₁, t₂, g, signature_folded hret hparams hsig, ?_, ?_, hfn', hstore',
    hbody', hg, hreturns', hflow', rfl⟩, ?_⟩
  · rw [hst.module.hasGlobal, hglobal]
  · rw [hst.defined]
    exact hdeclares'
  · exact { hst₂.toAlike with module := hmodule, scope := rfl, frame := .none }

/-! ## Members of a program -/

theorem declareGlobal_alike (hst : s.Alike t) : (s.declareGlobal x).Alike (t.declareGlobal x) := by
  have hmodule :
      (if s.module.hasGlobal x.name then s.module else s.module.addGlobal ⟨x.name, .i32⟩).Thinned
      (if t.module.hasGlobal x.name then t.module else t.module.addGlobal ⟨x.name, .i32⟩) := by
    rw [hst.module.hasGlobal]
    split
    · exact hst.module
    · exact hst.module.addGlobal _
  exact { (hst.warned x.warnings).bind x.name (.var rfl) with module := hmodule }

/-- One member and its copy, from states that are alike. -/
theorem item_alike {n m : Node} (hnm : Folded n m) (h : s.Item n s') (hst : s.Alike t) :
    ∃ t', t.Item m t' ∧ s'.Alike t' := by
  cases h with
  | @global stamp form type names x hform hx hfunc =>
    have hbinary : ∀ op, form ≠ .arithmetic op := by
      rintro op rfl
      simp at hform
    cases hnm with
    | @binary _ stamp' _ _ type' _ names' _ htype hnames _ =>
      refine ⟨_, .global hform (ofNodes?_folded htype hnames hx) ?_, ?_⟩
      · rw [hst.module.hasFunc, hfunc]
      · exact declareGlobal_alike hst
    | constant _ _ _ hv =>
      obtain ⟨op, _, _, _, _, hop, -⟩ := BinaryForm.constant?_eq_some.mp hv
      exact absurd hop (hbinary op)
  | @prototype stamp place ret params name sig m hsig hglobal hdecl =>
    cases hnm with
    | @binary _ stamp' _ _ ret' _ signature' _ hret hsignature _ =>
      obtain ⟨signature', rfl, hcopy⟩ := eq_some_of_rel hsignature rfl
      cases hcopy with
      | unary _ hparams =>
        obtain ⟨m', hdecl', hm⟩ := declaresFunction_thinned hdecl hst.module
        refine ⟨t.declareFunction name sig m', .prototype
          (signature_folded hret hparams hsig) ?_ ?_, ?_⟩
        · rw [hst.module.hasGlobal, hglobal]
        · rw [hst.defined]
          exact hdecl'
        · exact { (hst.warned sig.warnings).bind name .func with module := hm }
    | constant _ _ _ hv =>
      obtain ⟨op, _, _, _, _, hop, -⟩ := BinaryForm.constant?_eq_some.mp hv
      cases hop
  | @definition stamp place ret params name body s' hdef =>
    cases hnm with
    | ternary _ hret hsignature hbody =>
      obtain ⟨signature', rfl, hcopy⟩ := eq_some_of_rel hsignature rfl
      obtain ⟨body', rfl, hbody'⟩ := eq_some_of_rel hbody rfl
      cases hcopy with
      | unary _ hparams =>
        obtain ⟨t', hdef', hst'⟩ := defines_alike hret hparams (bodyItems_folded hbody') hdef hst
        exact ⟨t', .definition hdef', hst'⟩

/-! ## Programs -/

theorem visitTopLevel_alike (hnm : FoldedItems ns ms) (h : Gives (visitTopLevel ns) s u s')
    (hclean : s'.rejections = []) (hframe : s.frame = none) (hst : s.Alike t) :
    ∃ t', Gives (visitTopLevel ms) t u t' ∧ s'.Alike t' := by
  -- nothing is rejected in the state at the end, which the copy is to be alike
  suffices hsuff : ∃ t', s'.Alike t' ∧ (t'.rejections = [] → Gives (visitTopLevel ms) t u t') by
    obtain ⟨t', hst', hgives⟩ := hsuff
    exact ⟨t', hgives (hst'.rejections.trans hclean), hst'⟩
  induction hnm generalizing s t with
  | nil =>
    unfold visitTopLevel at h ⊢
    obtain ⟨rfl, rfl⟩ := gives_pure.mp h
    exact ⟨t, hst, fun _ => gives_pure.mpr ⟨rfl, rfl⟩⟩
  | cons hfirst _ ih =>
    obtain ⟨n, s₁, rfl, hitem, hrest⟩ := (gives_visitTopLevel_cons hframe hclean).mp h
    obtain ⟨m, rfl, hcopy⟩ := eq_some_of_rel hfirst rfl
    obtain ⟨t₁, hitem', hst₁⟩ := item_alike hcopy hitem hst
    obtain ⟨t', hst', hgives⟩ := ih hrest (hitem.outside hframe).1 hst₁
    refine ⟨t', hst', fun hclean' => ?_⟩
    exact (gives_visitTopLevel_cons (hst.frame_eq_none hframe) hclean').mpr
      ⟨m, t₁, rfl, hitem', hgives hclean'⟩

theorem alike_start (sourceName : String) :
    (State.start sourceName).Alike (State.start sourceName) :=
  ⟨⟨rfl, rfl, .nil⟩, .nil, rfl, rfl, .none, rfl, rfl⟩

/-- Raw and folded modules agree in shape. If a program is lowered without an error and folded
without an error, then the folded program is lowered without an error and with the same warnings,
and its module has the same globals, the same functions with the same signatures in the same order,
and bodies with the same blocks, labels, ends and targets, where only sums, differences, products,
quotients and remainders may be missing. -/
theorem build_fold_thinned {sourceName : String} {generation : UInt32} {f g : File}
    {out : Outcome (Option Failure)} (hroot : f.root.map Tree.kind = some .program)
    (hbuild : build sourceName f.root = .ok out) (hresult : out.result = none)
    (hfold : f.fold generation = .ok g) :
    ∃ out', build sourceName g.root = .ok out' ∧ out'.result = none ∧ out'.warnings = out.warnings ∧
      out.state.module.Thinned out'.state.module := by
  obtain ⟨n, hn, hkind⟩ := Option.map_eq_some_iff.mp hroot
  obtain ⟨m, hm, hcopy⟩ := eq_some_of_rel (rel_of_fold hfold) hn
  rw [hn] at hbuild
  rw [hm]
  cases hcopy with
  | @seq stamp stamp' form items items' hpos hitems =>
    cases form with
    | program =>
      obtain ⟨hgives, hclean, hout⟩ := build_program_iff.mp ⟨hbuild, hresult⟩
      obtain ⟨t, hgives', hst⟩ :=
        visitTopLevel_alike hitems hgives hclean rfl (alike_start sourceName)
      have hlowered : build sourceName (some (.seq stamp' .program items')) = .ok
          ⟨none, t.warnings, t⟩ :=
        (build_program_iff.mpr ⟨hgives', hst.rejections.trans hclean, rfl⟩).1
      refine ⟨_, hlowered, rfl, ?_, hst.module⟩
      rw [hout]
      exact hst.warnings
    | _ => cases hkind
  | @leaf _ _ form => cases form <;> cases hkind
  | @unary _ _ form => cases form <;> cases hkind
  | @binary _ _ form => cases form <;> cases hkind
  | @constant _ _ form => cases form <;> cases hkind
  | @ternary _ _ form => cases form <;> cases hkind

open Execution (overrun) in
theorem overrun_thinned :
    ∃ out g out', build "a.c" (File.ofSketch 0 "a.c" (some overrun)).root = .ok out ∧
    out.result = none ∧ (File.ofSketch 0 "a.c" (some overrun)).fold 1 = .ok g ∧
      build "a.c" g.root = .ok out' ∧
    out'.result = none ∧ out'.warnings = out.warnings ∧
      out.state.module.Thinned out'.state.module := by
  have hroot : (File.ofSketch 0 "a.c" (some overrun)).root.map Tree.kind = some .program := by
    decide +kernel
  have hbuild : (match build "a.c" (File.ofSketch 0 "a.c" (some overrun)).root with
      | .ok out => out.result.isNone
      | .error _ => false) = true := by decide +kernel
  have hfold : ((File.ofSketch 0 "a.c" (some overrun)).fold 1).isOk = true := by decide +kernel
  cases hg : (File.ofSketch 0 "a.c" (some overrun)).fold 1 with
  | error e => simp [hg, Except.isOk, Except.toBool] at hfold
  | ok g =>
    cases hout : build "a.c" (File.ofSketch 0 "a.c" (some overrun)).root with
    | error e => simp [hout] at hbuild
    | ok out =>
      have hresult : out.result = none := by simpa [hout] using hbuild
      obtain ⟨out', hout', hresult', hwarnings, hthin⟩ := build_fold_thinned hroot hout hresult hg
      exact ⟨out, g, out', rfl, hresult, rfl, hout', hresult', hwarnings, hthin⟩

end CSubset.Lowering
