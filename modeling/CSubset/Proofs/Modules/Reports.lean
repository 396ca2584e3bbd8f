import CSubset.Proofs.Execution.Tree
import CSubset.Proofs.Modules.History
import Mathlib.Data.List.Induction

/-!
# What the report of a program tells

The report of a program has one rejection for each member that is rejected, in the order of the
members, and there is no failure if no member is rejected. A function of the module has a body
exactly if a definition of it was accepted. So without a failure every definition has its body in
the module, and every declared function and variable is there (`report_complete`).
-/

namespace CSubset

/-- The name of the function that a node declares without defining it. -/
def Tree.prototype? {σ : Type} : Tree σ → Option String
  | .binary _ .forward _ (some (.unary _ (.signature name) _)) => some name
  | _ => none

namespace Lowering

open IR (Func Module)
open Execution (declares?)

variable {sourceName name : String} {s s' t : State} {n : Node} {u : Unit}
  {items before after : List (Option Node)}

/-! ## Functions with a body -/

/-- There is a function with this name, and it has a body. -/
def State.HasBody (s : State) (name : String) : Prop :=
  ∃ fn ∈ s.module.funcs, fn.name = name ∧ fn.blocks ≠ []

theorem State.hasBody_iff (hs : s.module.Found) :
    s.HasBody name ↔ ∃ fn, s.module.func? name = some fn ∧ fn.blocks ≠ [] := by
  constructor
  · rintro ⟨fn, hfn, rfl, hblocks⟩
    exact ⟨fn, hs fn hfn, hblocks⟩
  · rintro ⟨fn, hfn, hblocks⟩
    exact ⟨fn, List.mem_of_find?_eq_some hfn, Module.func?_name hfn, hblocks⟩

theorem Tree.kind_of_defines (h : n.defines? = some name) : n.kind = .definition := by
  unfold Tree.defines? at h
  split at h
  next => rfl
  next => cases h

/-- A body stays. -/
theorem State.HasBody.later (hs : s.Steady) (hfound : s.module.Found) (h : s.HasBody name)
    (hlater : s.Later s') : s'.HasBody name := by
  obtain ⟨fn, hfn, hblocks⟩ := (State.hasBody_iff hfound).mp h
  have hdefined : name ∈ s.defined := by
    by_contra hnot
    exact hblocks (hs.bodiless name fn hfn hnot)
  obtain ⟨fn', hfn', -, -, hsame⟩ := hlater.funcs name fn hfn
  obtain rfl := hsame hdefined
  exact ⟨fn', List.mem_of_find?_eq_some hfn', Module.func?_name hfn', hblocks⟩

theorem State.HasBody.of_sameCode {fn fn₀ : Func} (hfn₀ : s.module.func? name = some fn₀)
    (hsame : SameCode fn₀ fn) (hblocks : fn.blocks ≠ []) : s.HasBody name :=
  ⟨fn₀, List.mem_of_find?_eq_some hfn₀, Module.func?_name hfn₀, hsame.blocks ▸ hblocks⟩

/-- Where a function gets its code from, if the member that is lowered is accepted and is no
definition of it. -/
theorem State.Item.func?_of_ne (hs : s.Steady) (h : s.Item n s') (hname : n.defines? ≠ some name)
    {fn : Func} (hfn : s'.module.func? name = some fn) :
    (∃ fn₀, s.module.func? name = some fn₀ ∧ SameCode fn₀ fn) ∨ fn.blocks = [] := by
  cases h with
  | @global _ _ _ _ x _ _ _ =>
    exact .inl ⟨fn, (s.func?_declareGlobal x name).symm.trans hfn, .refl fn⟩
  | @prototype _ _ _ _ name' sig m _ _ hdecl =>
    obtain ⟨hothers, fn', hfn', -, -, hblocks, hold⟩ := hdecl.func?
    by_cases hother : name = name'
    · subst hother
      obtain rfl := Option.mem_unique hfn hfn'
      exact sameCode_or_empty hblocks hold
    · exact .inl ⟨fn, (hothers name hother).symm.trans hfn, .refl fn⟩
  | @definition _ _ _ _ name' _ _ hdef =>
    obtain ⟨-, -, -, hothers, -⟩ := hdef.body hs
    have hother : name ≠ name' := fun heq => hname (heq ▸ rfl)
    exact .inl ⟨fn, (hothers name hother).symm.trans hfn, .refl fn⟩

/-- Functions get a body from definitions that are accepted, and only from those. -/
theorem hasBody_of_gives_recording (hs : s.Steady) (hfound : s.module.Found)
    (h : Gives (recording (visitItem n)) s u s') :
    s'.HasBody name ↔ s.HasBody name ∨ (n.defines? = some name ∧ s.rejection? n = none) := by
  have hmember := gives_member hs.frame hs.scope h
  constructor
  · intro hbody
    obtain ⟨fn, hfn, hblocks⟩ := (State.hasBody_iff (hmember.found hfound)).mp hbody
    have hcode : ((∃ fn₀, s.module.func? name = some fn₀ ∧ SameCode fn₀ fn) ∨ fn.blocks = []) ∨
        (n.defines? = some name ∧ s.rejection? n = none) := by
      rcases gives_verdict h with ⟨haccepted, hitem⟩ | ⟨r, t, -, hstops, rfl⟩
      · by_cases hname : n.defines? = some name
        · exact .inr ⟨hname, haccepted⟩
        · obtain ⟨hkind, v, hv⟩ := gives_visitItem.mp hitem
          exact .inl (((gives_visit_item hs.frame hkind).mp hv).1.func?_of_ne hs hname hfn)
      · exact .inl ((stopsIn_visitItem hs.frame hs.scope _ t hstops).2.func? hfn)
    refine hcode.imp_left fun hcode => ?_
    rcases hcode with ⟨fn₀, hfn₀, hsame⟩ | hempty
    · exact .of_sameCode hfn₀ hsame hblocks
    · exact absurd hempty hblocks
  · rintro (hbody | ⟨hname, haccepted⟩)
    · exact hbody.later hs hfound (hmember.steady hs).2
    · rcases gives_verdict h with ⟨-, hitem⟩ | ⟨r, _, hr, -⟩
      · obtain ⟨name', fn, hname', -, -, hfn, hblocks⟩ :=
          accepted_definition hs (Tree.kind_of_defines hname) hitem
        obtain rfl := Option.mem_unique hname hname'
        exact ⟨fn, List.mem_of_find?_eq_some hfn, Module.func?_name hfn, hblocks⟩
      · rw [haccepted] at hr
        cases hr

/-- A function has a body behind a list of members if it had one before, or one of the members
defines it and is accepted. -/
theorem hasBody_of_gives_visitTopLevel (hs : s.Steady) (hfound : s.module.Found)
    (h : Gives (visitTopLevel items) s u s') (name : String) :
    s'.HasBody name ↔ s.HasBody name ∨ ∃ before n after, items = before ++ some n :: after ∧
      n.defines? = some name ∧
      (s.behind before).rejection? n = none := by
  -- from the last member backwards, since a verdict depends on the members in front
  induction items using List.reverseRecOn generalizing s' with
  | nil =>
    obtain rfl := gives_visitTopLevel_nil.mp h
    simp
  | append_singleton items c ih =>
    obtain ⟨t, hitems, hlast⟩ := gives_visitTopLevel_append.mp h
    obtain ⟨n, rfl, hn⟩ := gives_visitTopLevel_singleton.mp hlast
    obtain ⟨ht, -⟩ := steady_of_gives_visitTopLevel hs hitems
    have htfound : t.module.Found := by
      refine (invariant_of_gives_visitTopLevel (motive := fun t => t.module.Found) ?_ hs
        hfound hitems).2
      exact fun _ _ _ _ hfound hmember => hmember.found hfound
    rw [hasBody_of_gives_recording ht htfound hn, ih hitems, or_assoc]
    refine or_congr_right ⟨?_, ?_⟩
    · rintro (⟨before, m, after, rfl, hm⟩ | hm)
      · exact ⟨before, m, after ++ [some n], by simp, hm⟩
      · exact ⟨items, n, [], rfl, hm.1, (State.behind_eq hitems).symm ▸ hm.2⟩
    · rintro ⟨before, m, after, heq, hm⟩
      rcases List.eq_nil_or_concat after with rfl | ⟨init, c, rfl⟩
      · obtain ⟨rfl, hlast⟩ := List.append_inj' heq rfl
        obtain rfl : n = m := by simpa using hlast
        exact .inr ⟨hm.1, State.behind_eq hitems ▸ hm.2⟩
      · rw [List.concat_eq_append, ← List.cons_append, ← List.append_assoc] at heq
        obtain ⟨rfl, -⟩ := List.append_inj' heq rfl
        exact .inl ⟨before, m, init, rfl, hm⟩

/-! ## Reports without a failure -/

/-- If there are no rejections in the end, each member was accepted. -/
theorem rejection?_of_clean (hs : s.Steady)
    (h : Gives (visitTopLevel (before ++ some n :: after)) s u s') (hclean : s'.rejections = []) :
    (s.behind before).rejection? n = none := by
  obtain ⟨t, hbefore, hn, hafter⟩ := gives_visitTopLevel_split h
  have hbehind := (steady_of_gives_visitTopLevel hs hbefore).1
  have ht := ((gives_member hbehind.frame hbehind.scope hn).steady hbehind).1
  rw [rejections_eq_verdicts ht hafter, rejections_of_gives_recording hbehind hn] at hclean
  simpa using (List.append_eq_nil_iff.mp (List.append_eq_nil_iff.mp hclean).1).2

/-- What the module has from a member: a function with a body, a function or a variable. -/
inductive State.Has (s : State) (n : Node) : Prop where
  | definition {fn : Func} (hfn : fn ∈ s.module.funcs) (hname : n.defines? = some fn.name)
    (hblocks : fn.blocks ≠ [])
  | prototype {fn : Func} (hfn : fn ∈ s.module.funcs) (hname : n.prototype? = some fn.name)
  | global {x : IR.Global} (hx : x ∈ s.module.globals) (hname : declares? n = some x.name)

theorem State.Item.has (hs : s.Steady) (h : s.Item n t) (hlater : t.Later s') : s'.Has n := by
  cases h with
  | @global stamp form type names x hform hx hfunc =>
    have hdeclared : (s.declareGlobal x).module.hasGlobal x.name = true :=
      (s.module.hasGlobal_declare x.name x.name).mpr (.inl rfl)
    obtain ⟨g, hg, hname⟩ := List.any_eq_true.mp (hlater.globals x.name hdeclared)
    obtain ⟨-, place, stars, rfl⟩ := Variable.ofNodes?_eq_some hx
    refine .global hg ?_
    rw [eq_of_beq hname]
    rcases hform with rfl | rfl <;> rfl
  | @prototype _ _ _ _ name sig m _ _ hdecl =>
    obtain ⟨-, fn, hfn, -⟩ := hdecl.func?
    obtain ⟨fn', hfn', -⟩ := hlater.funcs name fn hfn
    refine .prototype (List.mem_of_find?_eq_some hfn') ?_
    rw [Module.func?_name hfn']
    rfl
  | @definition _ _ _ _ name _ _ hdef =>
    obtain ⟨-, -, hdefined, -, _, fn, _, _, _, _, _, -, hfn, hbody, -⟩ := hdef.body hs
    obtain ⟨fn', hfn', -, -, hsame⟩ := hlater.funcs name fn hfn
    obtain rfl := hsame (hdefined ▸ List.mem_cons_self)
    refine .definition (List.mem_of_find?_eq_some hfn') ?_ hbody.blocks_ne_nil
    rw [Module.func?_name hfn']
    rfl

/-- For a program without missing nodes: the report has the rejections of the members, in their
order, and it is a failure exactly if there is one. A function has a body exactly if some definition
of it was accepted. Without a failure, each member is a definition whose body is in the module, or a
declaration of a function or a variable that is there. -/
theorem report_complete {stamp : Stamp} {out : Outcome (Option Failure)}
    (hbuild : build sourceName (some (.seq stamp .program items)) = .ok out) :
    out.result = Failure.ofDiagnostics?
      (((State.start sourceName).verdicts items).reduceOption.map Rejection.diagnostic) ∧
    (out.result = none ↔ ∀ r, some r ∉ (State.start sourceName).verdicts items) ∧
    (∀ name, (∃ fn ∈ out.state.module.funcs, fn.name = name ∧ fn.blocks ≠ []) ↔
      ∃ before n after, items = before ++ some n :: after ∧ n.defines? = some name ∧
        ((State.start sourceName).behind before).rejection? n = none) ∧
    (out.result = none → ∀ n, some n ∈ items → out.state.Has n) := by
  obtain ⟨hitems, hout⟩ := build_eq_ok_iff_members.mp hbuild
  have hstart : (State.start sourceName).Steady := (State.sound_start sourceName).toSteady
  have hresult : out.result = out.state.failure? := by rw [hout]
  have hrejections : out.state.rejections =
      ((State.start sourceName).verdicts items).reduceOption := by
    rw [rejections_eq_verdicts hstart hitems]
    rfl
  refine ⟨?_, ?_, fun name => ?_, fun hnone n hn => ?_⟩
  · rw [hresult, State.failure?, hrejections]
  · rw [hresult, State.failure?_eq_none, hrejections, List.eq_nil_iff_forall_not_mem]
    simp only [List.reduceOption_mem_iff]
  · have hbodies := hasBody_of_gives_visitTopLevel hstart State.Reached.start.found hitems name
    rw [or_iff_right (by rintro ⟨fn, hfn, -⟩; cases hfn)] at hbodies
    exact hbodies
  · rw [hresult, State.failure?_eq_none] at hnone
    obtain ⟨before, after, rfl⟩ := List.append_of_mem hn
    obtain ⟨t, hbefore, hmember, hafter⟩ := gives_visitTopLevel_split hitems
    have hbehind := (steady_of_gives_visitTopLevel hstart hbefore).1
    have ht := ((gives_member hbehind.frame hbehind.scope hmember).steady hbehind).1
    have haccepted := rejection?_of_clean hstart hitems hnone
    rcases gives_verdict hmember with ⟨-, hitem⟩ | ⟨r, _, hr, -⟩
    · obtain ⟨hkind, v, hv⟩ := gives_visitItem.mp hitem
      exact ((gives_visit_item hbehind.frame hkind).mp hv).1.has hbehind
        (steady_of_gives_visitTopLevel ht hafter).2
    · rw [haccepted] at hr
      cases hr

theorem falling_report_complete :
    ∃ out,
    build "a.c" (some (.seq ⟨⟨0, 0⟩, .unknown⟩ .program (outset ++ [some falling]))) = .ok out ∧
      out.result ≠ none ∧
    (∃ r, some r ∈ (State.start "a.c").verdicts (outset ++ [some falling])) ∧
    ∃ before n after, outset ++ [some falling] = before ++ some n :: after ∧ n.defines? = some "g" ∧
      ((State.start "a.c").behind before).rejection? n = none := by
  have hcheck :
    (match (visitTopLevel (outset ++ [some falling]) (State.start "a.c") : Except Stop
    Unit × State) with
      | (.error _, _) => false
      | (.ok _, s) => s.rejections.length = 1 && s.module.funcs.any fun fn =>
          fn.name = "g" && !fn.blocks.isEmpty) = true := by decide +kernel
  rcases hrun :
    (visitTopLevel (outset ++ [some falling]) (State.start "a.c") : Except Stop Unit × State)
    with ⟨e | u, s⟩
  · simp [hrun] at hcheck
  · simp only [hrun, Bool.and_eq_true, List.any_eq_true, decide_eq_true_eq, Bool.not_eq_true',
      List.isEmpty_eq_false_iff] at hcheck
    obtain ⟨hlength, fn, hfn, hname, hblocks⟩ := hcheck
    have hbuild : build "a.c" (some (.seq ⟨⟨0, 0⟩, .unknown⟩ .program (outset ++ [some falling]))) =
        .ok ⟨s.failure?, s.warnings, s⟩ := build_eq_ok_iff_members.mpr ⟨hrun, rfl⟩
    obtain ⟨-, hclean, hbodies, -⟩ := report_complete hbuild
    have hresult : s.failure? ≠ none := by
      rw [Ne, State.failure?_eq_none]
      intro hnil
      simp [hnil] at hlength
    refine ⟨_, hbuild, hresult, ?_, (hbodies "g").mp ⟨fn, hfn, hname, hblocks⟩⟩
    by_contra hnot
    exact hresult (hclean.mpr fun r hr => hnot ⟨r, hr⟩)

end Lowering

end CSubset
