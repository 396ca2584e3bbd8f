import CSubset.Proofs.Dominance.Statements
import CSubset.Proofs.Simulation.Programs
import CSubset.Proofs.Tree.Parsed

/-!
# Which functions have dominance

Slots are made where the declarations stand, in branches and loops too, and a name is bound to its
slot up to the end of the function. So a use behind the branch is not dominated by the slot. Main
statement: `dominated_iff_inForce`, for each function of a module that was lowered without a failure
dominance holds exactly if every variable of its definition is in force where it is used.
`escaped_not_dominated` is a text for which it fails.
-/

namespace CSubset.Dominance

open Lowering IR Scoping
open Simulation (Bindings)
open Execution (TopLevel Definition)

variable {claims : Nat → List Nat} {s s' : State} {f g : Frame} {M : Entries} {u : Unit}

/-! ## Bodies -/

/-- The slots of the parameters are made and the arguments stored. -/
theorem standing_of_gives_storeParams {func : String} {n : Nat} {ps : List Param}
    (hparams : Gives (storeParams func n ps) s u s') (hs : Standing claims M s f)
    (hfunc : f.func = func) (htypes : ∀ p ∈ ps, p.ty = .i32) :
    ∃ new g, Entries.env new = (ps.map fun p => (p.name, true)).reverse ∧
      Standing claims (new ++ M) s' g := by
  induction ps generalizing s f M n with
  | nil =>
    obtain rfl := gives_storeParams_nil.mp hparams
    exact ⟨[], f, rfl, hs⟩
  | cons p ps ih =>
    obtain ⟨f', i, b, hf', hb, hrest⟩ := gives_storeParams_cons.mp hparams
    obtain rfl := Option.mem_unique hs.tracks.frame hf'
    obtain ⟨x, ty⟩ := p
    obtain rfl : ty = .i32 := htypes _ List.mem_cons_self
    have hb₁ := hb.useName (x ++ ".addr")
    let f₁ := (f.useName (x ++ ".addr")).push i b (.alloca (f.freshName (x ++ ".addr")) .i32 4)
    let slot := Value.result f.count (.ptr .i32)
    have hdeclared : Standing claims (⟨x, f.count, true⟩ :: M)
        { s with symbols := (x, .var slot (some func)) :: s.symbols, frame := some f₁ } f₁ :=
      hs.declare hb rfl (by rw [hfunc])
    -- the store uses the slot, which is declared right in front of it
    have huses : ∀ k ∈ (Op.store (.param n .i32) slot).uses, f₁.Here claims k := by
      intro k hk
      obtain rfl : k = f.count := List.mem_singleton.mp hk
      exact hdeclared.here _ List.mem_cons_self rfl
    have hstored : Standing claims (⟨x, f.count, true⟩ :: M) (s.storeParam func n ⟨x, .i32⟩ f i b)
        (f₁.push i { b with instrs := b.instrs ++
        [⟨f.count, .alloca (f.freshName (x ++ ".addr")) .i32 4⟩] } (.store (.param n .i32) slot)) :=
      hdeclared.push (hb₁.push _) huses rfl rfl
    obtain ⟨new, g, hnew, hstanding⟩ :=
      ih hrest hstored hfunc fun q hq => htypes q (List.mem_cons_of_mem _ hq)
    refine ⟨new ++ [⟨x, f.count, true⟩], g, ?_, by rwa [List.append_assoc]⟩
    rw [List.map_cons, List.reverse_cons, ← hnew]
    exact List.map_append ..

section Body

variable {name : String} {ps : List Param} {items : List (Option Node)} {m : Module} {fn : Func}
  {t t₁ t₂ : State}

/-- An empty first block claims nothing. -/
theorem standing_of_body (h : Body name ps items m fn t t₁ t₂ f g)
    (hret : fn.ret = .void ∨ fn.ret = .i32) : Standing (fun _ => []) [] t f := by
  obtain ⟨label, hblocks, -⟩ := h.first
  have hblock : ∀ {i : Nat} {b : Block}, f.blocks[i]? = some b → b = ⟨label, [], none⟩ := by
    intro i b hb
    rw [hblocks] at hb
    exact List.mem_singleton.mp (List.mem_of_getElem? hb)
  have hb : f.Filling 0 ⟨label, [], none⟩ := ⟨h.cursor, by simp [hblocks], rfl⟩
  refine ⟨Simulation.Body.tracks h hret, ⟨rfl, ?_, ?_⟩, by simp, ⟨[], 0, _, hb, .start⟩, by simp⟩
  · intro i b e j hb he
    rw [hblock hb] at he
    cases he
  · intro i k n huse
    cases huse with
    | instr hx _ =>
      obtain ⟨b, hb, hk⟩ := Option.bind_eq_some_iff.mp hx
      simp [hblock hb] at hk
    | term hb _ he _ =>
      rw [hblock hb] at he
      cases he

/-- A body has dominance exactly if its variables are in force where they are used. -/
theorem usesDominated_body (h : Body name ps items m fn t t₁ t₂ f g)
    (hret : fn.ret = .void ∨ fn.ret = .i32) (htypes : ∀ p ∈ ps, p.ty = .i32) :
    UsesDominated fn.blocks ↔ itemsInForce (Env.add [] (ps.map fun p => (p.name, true)))
      items = true := by
  obtain ⟨new, k, hnew, hstanding⟩ :=
    standing_of_gives_storeParams h.params (standing_of_body h hret) h.func htypes
  have hsettled :=
    settled_statements (fun n _ => settledChild_of fun t _ => settledTree t) h.statements hstanding
  rw [Entries.env_append hnew] at hsettled
  have hgrow : Grow g.blocks fn.blocks := by
    rw [h.blocks]
    exact (Frame.extends_endWith g (.ret none)).grow
  rcases hsettled with ⟨hok, claims', newer, g', -, hsettles⟩ | ⟨hbad, k', hk', hstray⟩
  · obtain rfl := Option.mem_unique h.finish hsettles.tracks.frame
    refine iff_of_true ?_ hok
    rw [h.blocks]
    cases hopen : g.isOpen with
    | false =>
      rw [Frame.endWith_of_not_isOpen (by simp [hopen])]
      exact hsettles.certificate.usesDominated
    | true =>
      obtain ⟨i, b, hb⟩ := Frame.isOpen_iff.mp hopen
      rw [Frame.endWith_of_filling hb]
      exact (hsettles.certificate.finish hb (fun n hn => by cases hn)
        fun j hj => by cases hj).usesDominated
  · obtain rfl := Option.mem_unique h.finish hk'
    refine iff_of_false (hstray.grow hgrow).not_usesDominated ?_
    exact Bool.eq_false_iff.mp hbad

end Body

/-! ## Programs -/

/-- Each function with a body was made from a definition, which decides about dominance. -/
theorem usesDominated_of_lowered {ns : List (Option Node)} {fn : Func}
    (hs : Gives (visitTopLevel ns) s u s') (hsound : s.Sound) (hfound : s.module.Found)
    (hstart : s.defined = []) (hclean : s'.rejections = []) (hfn : fn ∈ s'.module.funcs)
    (hblocks : fn.blocks ≠ []) :
    ∃ d, TopLevel.definition? ns fn.name = some d ∧
      (UsesDominated fn.blocks ↔ definitionInForce d = true) := by
  obtain ⟨hsound', -, -⟩ := lowered_of_gives_visitTopLevel hsound hs hclean
  have hfunc := found_of_gives_visitTopLevel hsound.frame hfound hs hclean fn hfn
  have hdefined : fn.name ∈ s'.defined := by
    by_contra hnot
    exact hblocks ((hsound'.bodies fn.name fn hfunc).mpr hnot)
  obtain ⟨d, hd⟩ := Option.ne_none_iff_exists'.mp
    (Simulation.definition?_ne_none hs hsound hclean hdefined (by simp [hstart]))
  obtain ⟨n, hn, ret, params, t, hat, hparams, hbody⟩ := Simulation.definition?_eq_some hd
  obtain ⟨sig, fn', t₀, t₁, t₂, f, g, hsig, hfn', hlowered⟩ :=
    body_of_definition hsound hs hclean hn hat
  obtain rfl := Option.mem_unique hfunc hfn'
  have hnames : d.params = sig.params.map (·.name) :=
    Option.mem_unique hparams (Simulation.paramNames_of_signature hsig)
  refine ⟨d, hd, ?_⟩
  rw [usesDominated_body hlowered (hsound'.ret fn.name fn hfunc) (Signature.types hsig).1,
    definitionInForce, hbody, hnames, List.map_map]
  rfl

/-- Let a text be read and lowered without a failure. Each function of the module that has a body
was made from a definition of the text. Every use of a result in it is dominated by the instruction
that computes the result, exactly if every variable of the definition is in force where it is
used. -/
theorem dominated_iff_inForce {generation : UInt32} {path sourceName : String} {text : List Char}
    {file : File} {out : Outcome (Option Failure)} {fn : Func}
    (hparse : File.parse generation path text = .ok file)
    (hbuild : build sourceName file.root = .ok out) (hresult : out.result = none)
    (hfn : fn ∈ out.state.module.funcs) (hblocks : fn.blocks ≠ []) :
    ∃ d, (TopLevel.ofRoot file.root).definition? fn.name = some d ∧
      (UsesDominated fn.blocks ↔ definitionInForce d = true) := by
  obtain ⟨stamp, ns, hroot⟩ := File.root_of_parse hparse
  rw [hroot] at hbuild ⊢
  obtain ⟨hs, hclean, -⟩ := build_program_iff.mp ⟨hbuild, hresult⟩
  have hempty : (State.start sourceName).module.Found := by simp [Module.Found, State.start]
  exact usesDominated_of_lowered hs (State.sound_start sourceName) hempty rfl hclean hfn hblocks

/-- The variable is declared in the branch and read behind it. -/
def escaped : List Char := "int f(int a) { if (a) { int x; x = 1; } return x; }".toList

theorem escaped_not_dominated :
    ∃ file out fn, File.parse 0 "a.c" escaped = .ok file ∧
    build "a.c" file.root = .ok out ∧ out.result = none ∧ fn ∈ out.state.module.funcs ∧
      fn.name = "f" ∧
    fn.blocks ≠ [] ∧ ¬UsesDominated fn.blocks := by
  have hcheck :
      ((File.parse 0 "a.c" escaped).toOption.any fun file => (build "a.c" file.root).toOption.any
      fun out => out.result.isNone && out.state.module.funcs.any
      (fun fn => fn.name = "f" && !fn.blocks.isEmpty) &&
      ((TopLevel.ofRoot file.root).definition? "f").all (!definitionInForce ·)) = true := by
    decide +kernel
  obtain ⟨file, hparse, hcheck⟩ := exists_ok_of_any hcheck
  obtain ⟨out, hbuild, hcheck⟩ := exists_ok_of_any hcheck
  simp only [Bool.and_eq_true, List.any_eq_true, Option.isNone_iff_eq_none] at hcheck
  obtain ⟨⟨hresult, fn, hfn, hname, hblocks⟩, hescapes⟩ := hcheck
  have hname : fn.name = "f" := by simpa using hname
  have hblocks : fn.blocks ≠ [] := by simpa using hblocks
  obtain ⟨d, hd, hiff⟩ := dominated_iff_inForce hparse hbuild hresult hfn hblocks
  rw [hname] at hd
  have hlapsed : definitionInForce d = false := by simpa [hd] using hescapes
  exact ⟨file, out, fn, hparse, hbuild, hresult, hfn, hname, hblocks, by rw [hiff, hlapsed]; simp⟩

end CSubset.Dominance
