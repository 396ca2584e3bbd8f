import CSubset.Proofs.LocalNames.Frames
import CSubset.Proofs.Modules.Reports
import CSubset.Proofs.WellFormed.Trees

/-!
# Local names of a module

In a function with a body, the parameters, the blocks and the slots have different names
(`local_names_unique`), whatever text the module comes from and whether or not the tree is folded
before it is lowered. The names in the text are words, so they are bases; the frame counts what it
gives out for each base; and a name tells its base and its number.
-/

namespace CSubset

/-- In each function with a body, no local name stands for two things. -/
def IR.Module.LocalNamesUnique (m : IR.Module) : Prop :=
  ∀ fn ∈ m.funcs, fn.blocks ≠ [] → fn.localNames.Nodup

namespace Lowering

open IR (Func Param)

variable {sourceName name : String} {s s' : State} {ret params : Option Node}
  {items : List (Option Node)} {sig : Signature} {P : String → Prop}

/-! ## Parameters of a definition -/

/-- The parameters have the names that the tree gives them. -/
theorem Signature.names (h : Signature.ofNodes? ret params = some sig)
    (hparams : ∀ n, params = some n → n.Naming P) : ∀ p ∈ sig.params, P p.name := by
  unfold Signature.ofNodes? at h
  split at h
  next =>
    obtain ⟨xs, hxs, rfl⟩ := Option.map_eq_some_iff.mp h
    intro p hp
    obtain ⟨x, hx, rfl⟩ := List.mem_map.mp hp
    obtain ⟨n, hn, hofParam⟩ := exists_mem_of_forall₂ (forall₂_of_mapM hxs) hx
    obtain ⟨stamp, place, isConst, place', stars, rfl, -⟩ := Variable.ofParam?_eq_some hofParam
    unfold paramNodes at hn
    split at hn
    next stamp' items =>
      exact ((hparams _ rfl).items _ hn).here
    next => cases hn
  next => cases h

/-- A definition leaves its function with the parameters under the names of the signature, as these
are shown if the function was declared before. -/
theorem DeclaresFunction.paramNames {defined : List String} {m m' : IR.Module} {fn : Func}
    (h : DeclaresFunction defined name sig true m m') (hfn : m'.func? name = some fn) :
    fn.params = sig.params ∨ fn.params = shownParams sig.params := by
  cases h with
  | first hnone =>
    rw [IR.Module.func?_addFunc, hnone] at hfn
    obtain rfl : _ = fn := by simpa using hfn
    exact .inl rfl
  | again fn₀ hsome _ _ =>
    rw [if_pos rfl, IR.Module.func?_setParams, if_pos rfl, hsome] at hfn
    obtain rfl := Option.some.inj hfn
    exact .inr rfl

theorem isBase_of_params {ps : List Param} (hwords : ∀ p ∈ sig.params, IsWord p.name)
    (hps : ps = sig.params ∨ ps = shownParams sig.params) :
    ∀ p ∈ ps, IsBase (IR.Name.shown p.name) := by
  have hsame : shownParams sig.params = sig.params := by
    refine (List.map_congr_left fun p hp => ?_).trans (List.map_id _)
    rw [(hwords p hp).shown_eq]
    rfl
  intro p hp
  have hp : p ∈ sig.params := by
    rcases hps with rfl | rfl
    · exact hp
    · exact hsame ▸ hp
  rw [(hwords p hp).shown_eq]
  exact .of_dot_not_mem (hwords p hp).dot_not_mem

/-- The function that a definition leaves has different local names. -/
theorem State.Defines.nodup_localNames (h : s.Defines ret name params items s')
    (hparams : ∀ n, params = some n → n.Naming IsWord)
    (hitems : ∀ n, some n ∈ items → n.Naming IsWord) :
    ∃ fn, s'.module.func? name = some fn ∧ fn.localNames.Nodup := by
  obtain ⟨sig, m, fn, s₁, s₂, g, hsig, -, hdecl, hfn, hstore, hstatements, hg, -, -, rfl⟩ := h
  let renamed := Frame.renameParams ⟨name, fn.ret, [], none, [], 0⟩ fn.params
  have hnodup :
      (renamed.1.map (·.name) ++ (g.endWith (.ret none)).blocks.flatMap
      IR.Block.localNames).Nodup := by
    have hbases := isBase_of_params (Signature.names hsig hparams) (hdecl.paramNames hfn)
    have hstart : ((renamed.2.addBlock "entry").moveTo (some 0)).Distinct
        (renamed.1.map (·.name)) :=
      (((Frame.Distinct.empty name fn.ret).renameParams hbases).step
        (Frame.step_addBlock _ (by decide))).step (.moveTo _)
    obtain ⟨k, hk, hparamSteps⟩ := steps_of_gives_storeParams hstore rfl
    obtain ⟨g', hg', hbodySteps⟩ :=
      steps_of_gives_visitStatements (fun _ _ t _ => steps_of_gives_visit t t rfl)
        hitems hstatements hk
    obtain rfl := Option.mem_unique hg hg'
    exact (hstart.steps (hparamSteps.trans (hbodySteps.trans (g.steps_endWith (.ret none))))).nodup
  -- the module got the parameters before the body was lowered, and the blocks after that
  obtain ⟨_, _, -, hframe⟩ :=
    State.opened_frame ({ s with scope := name }.declareFunction name sig m) name fn
  obtain ⟨k, hk, hkg⟩ := State.within_body hframe rfl hstore hstatements hg
  have hwithin := hk.trans hkg
  have hmodule : s₂.module = m.modifyFunc name fun fn => { fn with params := renamed.1 } :=
    hwithin.module
  have hfunc : g.func = name := hwithin.grows.func
  refine ⟨{ fn with params := renamed.1, blocks := (g.endWith (.ret none)).blocks }, ?_, hnodup⟩
  show (s₂.module.modifyFunc g.func fun fn =>
    { fn with blocks := (g.endWith (.ret none)).blocks }).func? name = _
  rw [hfunc, IR.Module.func?_setBlocks, hmodule, IR.Module.func?_setParams]
  simp [hfn]

/-! ## Programs -/

theorem naming_bodyItems {t : Node} (h : t.Naming P) : ∀ n, some n ∈ bodyItems t → n.Naming P := by
  unfold bodyItems
  split
  next => exact h.items
  next => nofun

theorem localNamesUnique_of_gives (hnaming : ∀ n, some n ∈ items → n.Naming IsWord)
    (h : Gives (visitTopLevel items) (State.start sourceName) () s') :
    s'.module.LocalNamesUnique := by
  intro fn hfn hblocks
  have hstart : (State.start sourceName).Steady := (State.sound_start sourceName).toSteady
  have hfound : s'.module.func? fn.name = some fn := State.Reached.found (.call .start h) fn hfn
  rcases (hasBody_of_gives_visitTopLevel hstart State.Reached.start.found h fn.name).mp
    ⟨fn, hfn, rfl, hblocks⟩ with
    ⟨_, hnone, -⟩ | ⟨before, n, after, rfl, hname, haccepted⟩
  · cases hnone
  · obtain ⟨t, hbefore, hn, hafter⟩ := gives_visitTopLevel_split h
    have hbehind := (steady_of_gives_visitTopLevel hstart hbefore).1
    rcases gives_verdict hn with ⟨-, hitem⟩ | ⟨r, _, hr, -⟩
    · obtain ⟨hkind, v, hv⟩ := gives_visitItem.mp hitem
      have hlater : t.Later s' :=
        (steady_of_gives_visitTopLevel
          ((gives_member hbehind.frame hbehind.scope hn).steady hbehind).1 hafter).2
      cases ((gives_visit_item hbehind.frame hkind).mp hv).1 with
      | global hform _ _ => rcases hform with rfl | rfl <;> cases hname
      | prototype _ _ _ => cases hname
      | @definition _ _ _ _ _ body _ hdef =>
        obtain rfl := Option.some.inj hname
        obtain ⟨-, hsignature, hbody⟩ :=
          (hnaming _ (List.mem_append_right before List.mem_cons_self)).children
        obtain ⟨fn', hfn', hnodup⟩ :=
          hdef.nodup_localNames (fun _ => (hsignature _ rfl).child) (naming_bodyItems (hbody _ rfl))
        obtain ⟨-, -, hdefined, -⟩ := hdef.body hbehind
        -- a function that is defined stays as it is
        obtain ⟨_, hkept, -, -, hsame⟩ := hlater.funcs _ fn' hfn'
        obtain rfl := hsame (hdefined ▸ List.mem_cons_self)
        obtain rfl := Option.mem_unique hfound hkept
        exact hnodup
    · rw [haccepted] at hr
      cases hr

theorem localNamesUnique_of_build (sourceName : String) {stamp : Stamp}
    (hitems : Node.AllItems Node.IsMember items) :
    ∃ out, build sourceName (some (.seq stamp .program items)) = .ok out ∧
      out.state.module.LocalNamesUnique := by
  obtain ⟨out, hbuild, hgives⟩ := build_of_whole sourceName (Node.whole_of_members hitems)
  refine ⟨out, hbuild, localNamesUnique_of_gives (fun n hn => ?_) hgives⟩
  exact (hitems.2 n hn).sound.mono fun _ => And.right

/-- A text that can be read is lowered to a module in which no function with a body has two
parameters, blocks or slots of one name. So is its folded tree, if it can be folded. -/
theorem local_names_unique {generation : UInt32} {path : String} {text : List Char} {file : File}
    (sourceName : String) (hparse : File.parse generation path text = .ok file) :
    (∃ out, build sourceName file.root = .ok out ∧ out.state.module.LocalNamesUnique) ∧
      ∀ generation' folded, file.fold generation' = .ok folded →
        ∃ out, build sourceName folded.root = .ok out ∧ out.state.module.LocalNamesUnique := by
  constructor
  · obtain ⟨_, _, hroot, hitems⟩ := File.members_of_parse hparse
    exact hroot ▸ localNamesUnique_of_build sourceName hitems
  · intro generation' folded hfold
    obtain ⟨_, _, hroot, hitems⟩ := File.members_of_fold hparse hfold
    exact hroot ▸ localNamesUnique_of_build sourceName hitems

/-- The parameters and the variables repeat names, and one of them is the label of the first
block. -/
def repeating : List Char :=
  "int f(int entry, int x, int x) { int entry; x = 1 + 2; return x; }".toList

/-- The functions with a body and their local names. -/
def State.localNames (s : State) : List (String × List String) :=
  (s.module.funcs.filter fun fn => !fn.blocks.isEmpty).map fun fn => (fn.name, fn.localNames)

theorem repeating_names_unique :
    ∃ file folded out out', File.parse 0 "a.c" repeating = .ok file ∧
    file.fold 1 = .ok folded ∧ build "a.c" file.root = .ok out ∧
      build "a.c" folded.root = .ok out' ∧
    out.state.localNames = out'.state.localNames ∧
    out.state.localNames =
      [("f", ["entry", "x", "x.1", "entry.1", "entry.addr", "x.addr", "x.addr.1", "entry.2"])] ∧
    out.state.module.LocalNamesUnique ∧ out'.state.module.LocalNamesUnique := by
  have hcheck : ((File.parse 0 "a.c" repeating).toOption.any fun file => (file.fold 1).toOption.any
      fun folded => (build "a.c" file.root).toOption.any fun out =>
      (build "a.c" folded.root).toOption.any fun out' => out.state.localNames =
      out'.state.localNames && out.state.localNames =
      [("f", ["entry", "x", "x.1", "entry.1", "entry.addr", "x.addr", "x.addr.1", "entry.2"])]) =
      true := by
    decide +kernel
  obtain ⟨file, hparse, hcheck⟩ := exists_ok_of_any hcheck
  obtain ⟨folded, hfold, hcheck⟩ := exists_ok_of_any hcheck
  obtain ⟨⟨out, hbuild, hunique⟩, hfolded⟩ := local_names_unique "a.c" hparse
  obtain ⟨out', hbuild', hunique'⟩ := hfolded 1 folded hfold
  rw [hbuild, hbuild'] at hcheck
  simp only [Except.toOption, Option.any_some, Bool.and_eq_true, decide_eq_true_eq] at hcheck
  exact ⟨file, folded, out, out', hparse, hfold, hbuild, hbuild', hcheck.1, hcheck.2,
    hunique, hunique'⟩

end Lowering

end CSubset
