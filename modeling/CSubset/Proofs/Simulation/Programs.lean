import CSubset.Proofs.Simulation.Functions
import CSubset.Tree.File
import Mathlib.Data.Option.Basic

/-!
# Lowering preserves meaning

A program that is lowered without a failure means the same before and after: where the execution of
a function on the tree ends, the machine that runs the module ends too, with the same value, the
same global variables and the same calls of functions without a body (`build_preserves_execution`).
The induction is on the fuel, that is on the depth of calls.
-/

namespace CSubset.Simulation

open Lowering Execution
open IR (Func Module)
open IR.Machine (Config Caller)

variable {s s' : State} {name : String} {ns : List (Option Node)} {u : Unit} {conv : Convention}
  {outside : Outside}

/-! ## Definitions on both sides -/

theorem members_parameters (params : Option Node) :
    members .parameters params = paramNodes params := by
  unfold members paramNodes
  split
  next l form items =>
    cases form <;> rfl
  next h =>
    split
    next => exact absurd rfl (h _ _ _)
    next => rfl

theorem members_block (t : Node) : members .block (some t) = bodyItems t := by
  rcases t with _ | ⟨l, form, items⟩ | _ | _ | _
  case seq => cases form <;> rfl
  all_goals rfl

theorem paramName?_of_ofParam? {n : Option Node} {x : Variable} (h : Variable.ofParam? n = some x) :
    paramName? n = some x.name := by
  obtain ⟨_, _, _, _, _, rfl, -⟩ := Variable.ofParam?_eq_some h
  rfl

theorem paramNames_of_signature {ret params : Option Node} {sig : Signature}
    (h : Signature.ofNodes? ret params = some sig) :
    (members .parameters params).mapM paramName? = some (sig.params.map (·.name)) := by
  have hnames : ∀ (items : List (Option Node)) xs, items.mapM Variable.ofParam? = some xs →
      items.mapM paramName? = some (xs.map (·.name)) := by
    intro items
    induction items with
    | nil =>
      rintro xs ⟨⟩
      rfl
    | cons n items ih =>
      intro xs hxs
      simp only [List.mapM_cons, Option.bind_eq_bind, Option.bind_eq_some_iff, Option.pure_def,
        Option.some.injEq] at hxs
      obtain ⟨x, hx, rest, hrest, rfl⟩ := hxs
      simp [List.mapM_cons, paramName?_of_ofParam? hx, ih rest hrest]
  rw [members_parameters]
  unfold Signature.ofNodes? at h
  split at h
  next stamp tag isConst =>
    obtain ⟨xs, hxs, rfl⟩ := Option.map_eq_some_iff.mp h
    rw [hnames _ _ hxs, List.map_map]
    rfl
  next => simp at h

theorem definition?_eq_some {d : Definition Stamp} (h : TopLevel.definition? ns name = some d) :
    ∃ n ∈ ns, ∃ ret params t, DefinesAt n name ret params t ∧
      (members .parameters params).mapM paramName? = some d.params ∧ d.body = bodyItems t := by
  obtain ⟨n, hn, h⟩ := List.exists_of_findSome?_eq_some h
  obtain ⟨t, rfl, htree⟩ := Option.bind_eq_some_iff.mp h
  unfold Definition.ofTree? at htree
  split at htree
  next stamp ret place func params body =>
    split at htree
    next hfunc =>
      subst hfunc
      obtain ⟨names, hnames, rfl⟩ := Option.map_eq_some_iff.mp htree
      exact ⟨_, hn, ret, params, body, ⟨stamp, place, rfl⟩, hnames, members_block body⟩
    next => simp at htree
  next => simp at htree

/-- A function whose definition was lowered has one in the tree. -/
theorem definition?_ne_none (hs : Gives (visitTopLevel ns) s u s') (hsound : s.Sound)
    (hclean : s'.rejections = []) (hname : name ∈ s'.defined) (hnew : name ∉ s.defined) :
    TopLevel.definition? ns name ≠ none := by
  obtain ⟨n, hn, ret, params, t, hdef⟩ := definition_of_mem_defined hsound hs hclean hname hnew
  obtain ⟨sig, _, _, _, _, _, _, hsig, -⟩ := body_of_definition hsound hs hclean hn hdef
  obtain ⟨stamp, place, rfl⟩ := hdef
  intro hnone
  have := List.findSome?_eq_none_iff.mp hnone _ hn
  simp [Definition.ofTree?, paramNames_of_signature hsig] at this

/-! ## Calls -/

/-- A function with a body runs on the machine as its definition is executed. -/
def Runs (m : Module) (ns : TopLevel Stamp) (conv : Convention) (outside : Outside) (fuel : Nat) :
    Prop :=
  ∀ name d args w v w', ns.definition? name = some d → ns.run conv outside fuel name args w =
    (.ok v, w') → ∃ fn, m.func? name = some fn ∧ fn.blocks ≠ [] ∧ args.length = fn.params.length ∧
    ∀ callers, IR.Machine.Reaches m conv outside (.running (.enter fn args) callers w)
        (IR.Machine.leave v w' callers)

theorem Runs.answers {fuel : Nat} (hruns : Runs s'.module ns conv outside fuel) (hsound : s'.Sound)
    (hdefs : ∀ name ∈ s'.defined, TopLevel.definition? ns name ≠ none) (rounds : Nat) :
    Answers s'.module s'.module outside
      ⟨conv, TopLevel.isGlobal ns, TopLevel.run ns conv outside fuel, rounds⟩ := by
  intro callee fn args w v w' caller callers hfn hcall
  cases hdef : TopLevel.definition? ns callee with
  | some d =>
    obtain ⟨fn', hfn', hblocks, hlength, hreach⟩ := hruns callee d args w v w' hdef hcall
    refine ⟨_, ?_, hreach (caller :: callers)⟩
    simp [IR.Machine.call, hfn', hblocks, hlength]
  | none =>
    -- without a definition there is no body, so the function is outside
    have hblocks : fn.blocks = [] :=
      (hsound.bodies callee fn hfn).mpr fun hmem => hdefs callee hmem hdef
    have hout := (run_eq_ok_of_none hdef).mp hcall
    exact ⟨_, by simp [IR.Machine.call, hfn, hblocks, hout], .refl⟩

theorem runs_of_lowered (hs : Gives (visitTopLevel ns) s u s') (hsound : s.Sound)
    (hclean : s'.rejections = []) (hstart : s.defined = []) (fuel : Nat) :
    Runs s'.module ns conv outside fuel := by
  obtain ⟨hsound', -, -⟩ := lowered_of_gives_visitTopLevel hsound hs hclean
  have hdefs : ∀ name ∈ s'.defined, TopLevel.definition? ns name ≠ none := fun name hname =>
    definition?_ne_none hs hsound hclean hname (by simp [hstart])
  induction fuel with
  | zero =>
    intro name d args w v w' hdef hrun
    simp [run_zero hdef] at hrun
  | succ fuel ih =>
    intro name d args w v w' hdef hrun
    obtain ⟨n, hn, ret, params, t, hat, hparams, hbody⟩ := definition?_eq_some hdef
    obtain ⟨sig, fn, t₀, t₁, t₂, f, g, hsig, hfn, hlowered⟩ :=
      body_of_definition hsound hs hclean hn hat
    have hnames : d.params = sig.params.map (·.name) :=
      Option.mem_unique hparams (paramNames_of_signature hsig)
    have hcount : fn.params.length = sig.params.length := by
      simpa using congrArg List.length hlowered.paramTypes
    rw [run_succ hdef, execute_eq_ok, hnames, hbody, List.length_map] at hrun
    obtain ⟨hlength, flow, st, hexec, rfl, rfl⟩ := hrun
    exact ⟨fn, hfn, hlowered.blocks_ne_nil, hlength.trans hcount.symm,
      fun callers => Body.reaches hlowered (hsound'.ret name fn hfn) (Signature.types hsig).1
      (ih.answers hsound' hdefs fuel) hlength hexec⟩

/-- Lowering preserves meaning. Let a program be lowered without a failure, and let a function of it
have a body. If its execution on the tree ends, from any arguments and any values of the global
variables and for any interpretation of the functions without a body, then the machine, started on
the function in the module, ends with the same returned value, the same global variables and the
same calls. -/
theorem build_preserves_execution {sourceName : String} {root : Option Node}
    {out : Outcome (Option Failure)} (hbuild : build sourceName root = .ok out)
    (hresult : out.result = none) (hbody : (TopLevel.ofRoot root).definition? name ≠ none)
    (args : List Int32) (globals : String → Int32) {fuel : Nat} {v : Option Int32} {w : World}
    (hrun : (TopLevel.ofRoot root).run conv outside fuel name args ⟨globals, []⟩ = (.ok v, w)) :
    ∃ c n, IR.Machine.start? out.state.module name args ⟨globals, []⟩ = some c ∧
      IR.Machine.run out.state.module conv outside n c = .done v w := by
  -- only a program has definitions
  obtain ⟨stamp, ns, rfl⟩ : ∃ stamp ns, root = some (.seq stamp .program ns) := by
    unfold TopLevel.ofRoot members at hbody
    split at hbody
    next stamp form ns =>
      split at hbody
      next hform => exact ⟨stamp, ns, by rw [hform]⟩
      next => exact absurd rfl hbody
    next => exact absurd rfl hbody
  obtain ⟨hs, hclean, -⟩ := build_program_iff.mp ⟨hbuild, hresult⟩
  obtain ⟨d, hd⟩ := Option.ne_none_iff_exists'.mp hbody
  obtain ⟨fn, hfn, hblocks, hlength, hreach⟩ :=
    runs_of_lowered hs (State.sound_start sourceName) hclean rfl fuel name d args
      ⟨globals, []⟩ v w hd hrun
  obtain ⟨n, hn⟩ := hreach []
  exact ⟨.running (.enter fn args) [] ⟨globals, []⟩,
    n, by simp [IR.Machine.start?, hfn, hblocks, hlength], hn⟩

/-- A program in which a loop calls a function without a body:
`int t; int get(int k); int f(int a) { while (a) a = get(a); t = a; return a; }`. -/
def countdown : Node :=
  let here : Stamp := ⟨⟨0, 0⟩, ⟨1, 1⟩⟩
  let int : Option Node := some (.leaf here (.type (.known .int) false))
  let name (x : String) : Option Node := some (.leaf here (.names [x] 0))
  let param (x : String) : Option Node :=
    some (.seq here .parameters [some (.binary here .declaration int (name x))])
  .seq here .program [ some (.binary here .declaration int (name "t")),
    some (.binary here .forward int (some (.unary here (.signature "get") (param "k")))),
    some (.ternary here .definition int (some (.unary here (.signature "f") (param "a")))
    (some (.seq here .block
    [ some (.binary here .while (name "a")
    (some (.binary here .assign (name "a")
    (some (.unary here (.call "get") (some (.seq here .parameters [name "a"]))))))),
    some (.binary here .assign (name "t") (name "a")), some (.unary here .ret (name "a"))])))]

/-- An interpretation that subtracts one and leaves the global variables alone. -/
def decrement : Outside := fun _ _ args globals => some (args.head?.map (· - 1), globals)

theorem countdown_preserved :
    ∃ out, build "a.c" (some countdown) = .ok out ∧ out.result = none ∧
    ∃ w c n, (TopLevel.ofRoot (some countdown)).run ⟨none, true, true⟩ decrement 4 "f" [2]
      ⟨fun _ => 7, []⟩ =
        (.ok (some 0), w) ∧ w.globals "t" = 0 ∧ w.calls = [⟨"get", [2]⟩, ⟨"get", [1]⟩] ∧
      IR.Machine.start? out.state.module "f" [2] ⟨fun _ => 7, []⟩ = some c ∧
      IR.Machine.run out.state.module ⟨none, true, true⟩ decrement n c = .done (some 0) w := by
  have hbuild : (match build "a.c" (some countdown) with
      | .ok out => out.result.isNone
      | .error _ => false) = true := by decide +kernel
  let result :=
    (TopLevel.ofRoot (some countdown)).run ⟨none, true, true⟩ decrement 4 "f" [2] ⟨fun _ => 7, []⟩
  have hvalue : result.1 = .ok (some 0) := by rfl
  have hrun : result = (.ok (some 0), result.2) := Prod.ext hvalue rfl
  have ht : result.2.globals "t" = 0 := by rfl
  have hcalls : result.2.calls = [⟨"get", [2]⟩, ⟨"get", [1]⟩] := by rfl
  cases hout : build "a.c" (some countdown) with
  | error e => simp [hout] at hbuild
  | ok out =>
    have hresult : out.result = none := by simpa [hout] using hbuild
    obtain ⟨c, n, hstart, hdone⟩ :=
      build_preserves_execution hout hresult (by decide) [2] (fun _ => 7) hrun
    exact ⟨out, rfl, hresult, _, c, n, hrun, ht, hcalls, hstart, hdone⟩

end CSubset.Simulation
