import CSubset.Proofs.Lowering.Members

/-!
# Control flow of whole modules

However many programs are lowered into a module, and whatever is rejected on the way, each function
of the module has no code or code with sound control flow (`reached_flow_sound`); and code is only
ever appended to an open block. So the check at the end of a body has nothing to find
(`flow_check_passes`): it is the construction that keeps the flow sound.
-/

namespace CSubset.Lowering

open IR (Ty Value Op Term Block Func Param Module)

variable {s s' t : State} {sourceName : String}

theorem stops_getOpenBlock (h : ∀ f i b, t.frame = some f → ¬f.Filling i b) :
    ∃ e, e ≠ .missingNode ∧ Stops getOpenBlock t (.fault e) t := by
  unfold getOpenBlock
  cases hf : t.frame with
  | none =>
    refine ⟨.noFunction, nofun, stops_bind.mpr (.inl ?_)⟩
    unfold getFrame
    rw [(gives_get.mpr ⟨rfl, rfl⟩).stops_bind_iff, hf]
    exact stops_throw.mpr ⟨rfl, rfl⟩
  | some f =>
    rcases hcurrent : f.current? with _ | ⟨i, b⟩
    · refine ⟨.noBlock, nofun, ?_⟩
      rw [(gives_getFrame.mpr ⟨hf, rfl⟩).stops_bind_iff, hcurrent]
      exact stops_throw.mpr ⟨rfl, rfl⟩
    · obtain ⟨hi, hb⟩ := Frame.current?_eq_some.mp hcurrent
      have hterm : b.term.isSome = true := by
        rw [Option.isSome_iff_ne_none]
        exact fun hterm => h f i b hf ⟨hi, hb, hterm⟩
      refine ⟨.closedBlock, nofun, ?_⟩
      rw [(gives_getFrame.mpr ⟨hf, rfl⟩).stops_bind_iff, hcurrent]
      dsimp only
      rw [if_pos hterm]
      exact stops_throw.mpr ⟨rfl, rfl⟩

/-- Something is appended to an open block, or else the step is a fault. -/
theorem append_cases {α : Type} {k : Nat × Block → LowerM α} (t : State) :
    (∃ f i b, t.frame = some f ∧ f.Filling i b) ∨
      ∃ e, e ≠ .missingNode ∧ Stops (getOpenBlock >>= k) t (.fault e) t := by
  by_cases h : ∃ f i b, t.frame = some f ∧ f.Filling i b
  · exact .inl h
  · obtain ⟨e, he, hstops⟩ := stops_getOpenBlock fun f i b hf hb => h ⟨f, i, b, hf, hb⟩
    exact .inr ⟨e, he, stops_bind.mpr (.inl hstops)⟩

/-! ## Functions of a module -/

theorem Body.flow_sound {name : String} {ps : List Param} {items : List (Option Node)} {m : Module}
    {fn : Func} {t t₁ t₂ : State} {f g : Frame} (h : Body name ps items m fn t t₁ t₂ f g) :
    IR.Flow.Sound fn.blocks := by
  obtain ⟨label, hfirst, hlabel⟩ := h.first
  rw [h.blocks]
  exact sound_of_lowered h.start hfirst hlabel h.cursor h.params h.statements h.finish

/-- Each function that can be found has no code or code with sound control flow. -/
def State.FlowSound (s : State) : Prop :=
  ∀ name fn, s.module.func? name = some fn → fn.blocks = [] ∨ IR.Flow.Sound fn.blocks

theorem State.Member.flowSound {n : Node} (hs : s.Steady) (hflow : s.FlowSound)
    (h : s.Member n s') : s'.FlowSound := by
  intro name fn hfn
  rcases h.func? hs hfn with ⟨fn₀, hfn₀, hsame⟩ | hempty | ⟨ps, items, t, t₁, t₂, f, g, -, hbody⟩
  · rw [hsame.blocks]
    exact hflow name fn₀ hfn₀
  · exact .inl hempty
  · exact .inr hbody.flow_sound

/-- In a state between two members each function has no code, or its first block is the entry and no
target, every block has an end, the ends lead to blocks of the function and control gets to every
block. Lowering a further program ends in such a state again, whatever is rejected; otherwise a node
is missing. So no instruction and no end is ever appended where no open block is being filled, since
that is a fault of another kind. -/
theorem reached_flow_sound (hs : s.Reached sourceName) :
    (∀ fn ∈ s.module.funcs, fn.blocks = [] ∨ IR.Flow.Sound fn.blocks) ∧
    (∀ stamp items,
      (∃ out, s.lower (some (.seq stamp .program items)) = .ok out ∧ out.state.Reached sourceName) ∨
      s.lower (some (.seq stamp .program items)) = .error .missingNode) ∧
    (∀ (t : State) (op : Op), (∃ f i b, t.frame = some f ∧ f.Filling i b) ∨
      ∃ e, e ≠ .missingNode ∧ Stops (emit op) t (.fault e) t) ∧
    (∀ (t : State) (term : Term), (∃ f i b, t.frame = some f ∧ f.Filling i b) ∨
      ∃ e, e ≠ .missingNode ∧ Stops (close term) t (.fault e) t) := by
  refine ⟨?_, hs.lower, fun t _ => append_cases t, fun t _ => append_cases t⟩
  intro fn hfn
  have hflow :=
    (hs.ind (motive := State.FlowSound) (by simp [State.FlowSound, State.start, Module.func?])
      (fun _ h => h) fun _ _ _ hs hflow hmember => hmember.flowSound hs hflow).2
  exact hflow fn.name fn (hs.found fn hfn)

/-- A function with a branch in a loop, and one that does not return the value that it should. -/
def looped : List (Option Node) :=
  let k : Stamp := ⟨⟨0, 0⟩, .unknown⟩
  let int : Option Node := some (.leaf k (.type (.known .int) false))
  let a : Option Node := some (.leaf k (.names ["a"] 0))
  let leave : Option Node := some (.unary k .ret a)
  let params : Option Node := some (.seq k .parameters [some (.binary k .declaration int a)])
  [some (.ternary k .definition int (some (.unary k (.signature "f") params))
    (some (.seq k .block [some (.binary k .while a (some (.binary k .ifThen a leave))), leave]))),
    some (.ternary k .definition int (some (.unary k (.signature "g") none))
    (some (.seq k .block [])))]

theorem looped_flow_sound :
    ∃ (s : State) (fn : Func), s.Reached "a.c" ∧ s.rejections.length = 1 ∧ fn ∈ s.module.funcs ∧
    fn.name = "f" ∧ fn.blocks.length = 6 ∧ IR.Flow.Sound fn.blocks := by
  have hcheck : (match (visitTopLevel looped (State.start "a.c") : Except Stop Unit × State) with
      | (.error _, _) => false
      | (.ok _, s) => s.rejections.length = 1 && s.module.funcs.any fun fn =>
          fn.name = "f" && fn.blocks.length = 6) = true := by decide +kernel
  rcases hrun : (visitTopLevel looped (State.start "a.c") : Except Stop Unit × State)
    with ⟨e | u, s⟩
  · simp [hrun] at hcheck
  · simp only [hrun, Bool.and_eq_true, List.any_eq_true, decide_eq_true_eq] at hcheck
    obtain ⟨hrejected, fn, hfn, hname, hlength⟩ := hcheck
    have hreached : s.Reached "a.c" := .call (s := State.start "a.c") .start hrun
    refine ⟨s, fn, hreached, hrejected, hfn, hname, hlength, ?_⟩
    refine ((reached_flow_sound hreached).1 fn hfn).resolve_left fun hempty => ?_
    simp [hempty] at hlength

/-! ## The check at the end of a body -/

theorem rejections_of_reached (hs : s.Reached sourceName) :
    ∀ r ∈ s.rejections, ∀ d, r.cause ≠ .flow d := by
  refine (hs.ind (motive := fun s => ∀ r ∈ s.rejections, ∀ d, r.cause ≠ .flow d) ?_
    (fun _ h => h) ?_).2
  · simp [State.start]
  · intro s n s' hsteady hclean hmember
    cases hmember with
    | accepted h =>
      rw [(h.outside hsteady.frame).2]
      exact hclean
    | @refused r t hr h =>
      show ∀ r' ∈ t.rejections ++ [r], _
      rw [h.rejections]
      intro r' hr'
      rcases List.mem_append.mp hr' with hold | hnew
      · exact hclean r' hold
      · exact List.mem_singleton.mp hnew ▸ hr

/-- In a state between two members: if a function can be declared and its body lowered, and control
does not get to the end of a function that returns a value, the check of the control flow finds
nothing. So no definition is ever rejected for its control flow, and no such rejection is in the
report of a program. -/
theorem flow_check_passes (hs : s.Reached sourceName) :
    (∀ ret place name params body ps t₁ t₂ t₃ g,
      Gives (declareFunction ret place name params true) { s with scope := name } ps t₁ →
      Gives (openBody name ps) t₁ () t₂ → Gives (visitBody (some body)) t₂ () t₃ →
        t₃.frame = some g →
      (g.isOpen = true → g.ret = .void) → IR.Flow.defect? (g.endWith (.ret none)).blocks = none) ∧
    (∀ stamp ret signature body r t d,
      Stops (visit (.ternary stamp .definition ret signature body)) s (.rejected r) t →
        r.cause ≠ .flow d) ∧
    (∀ stamp items out, s.lower (some (.seq stamp .program items)) = .ok out →
      ∀ r ∈ out.state.rejections, ∀ d, r.cause ≠ .flow d) := by
  refine ⟨?_, ?_, ?_⟩
  · intro ret place name params body ps t₁ t₂ t₃ g _ hopen hbody hg _
    obtain ⟨fn, -, hstored⟩ := gives_openBody.mp hopen
    obtain ⟨names, label, hlabel, hframe⟩ := t₁.opened_frame name fn
    rw [visitBody_some] at hbody
    exact (sound_of_lowered hframe rfl hlabel rfl hstored hbody hg).defect?_eq_none
  · intro stamp ret signature body r t d h
    have hitem : Stops (visitItem (.ternary stamp .definition ret signature body)) s
        (.rejected r) t :=
      stops_bind.mpr (.inl h)
    exact (stopsIn_visitItem hs.steady.frame hs.steady.scope _ t hitem).1 d
  · intro stamp items out hlower
    rcases hs.lower stamp items with ⟨out', hlower', hreached⟩ | hmissing
    · obtain rfl : out = out' := Except.ok.inj (hlower.symm.trans hlower')
      exact rejections_of_reached hreached
    · cases hlower.symm.trans hmissing

/-- The first steps of the definition of a function without a value, in which control gets past a
branch to the end. -/
def branching : LowerM Unit :=
  let k : Stamp := ⟨⟨0, 0⟩, .unknown⟩
  do
    let ps ← declareFunction (some (.leaf k (.type (.known .void) false)))
      ⟨.signature, .unknown⟩ "f" none true
    openBody "f" ps
    visitBody (some (.seq k .block
      [some (.binary k .ifThen (some (.leaf k (.intConst 1))) (some (.unary k .ret none)))]))

theorem branching_check_passes :
    ∃ (t : State) (g : Frame), (State.start "a.c").Reached "a.c" ∧
    Gives branching { State.start "a.c" with scope := "f" } () t ∧ t.frame = some g ∧
      g.blocks.length = 3 ∧
    g.isOpen = true ∧ g.ret = .void ∧ IR.Flow.defect? (g.endWith (.ret none)).blocks = none := by
  have hcheck :
    (match (branching { State.start "a.c" with scope := "f" } : Except Stop Unit × State) with
      | (.error _, _) => false
      | (.ok _, t) =>
        t.frame.any fun g => g.blocks.length = 3 && g.isOpen && g.ret.isVoid) = true := by
    decide +kernel
  rcases hrun : (branching { State.start "a.c" with scope := "f" } : Except Stop Unit × State)
    with ⟨e | u, t⟩
  · simp [hrun] at hcheck
  · simp only [hrun, Option.any_eq_true, Bool.and_eq_true, decide_eq_true_eq, Ty.isVoid] at hcheck
    obtain ⟨g, hg, ⟨hlength, hopen⟩, hret⟩ := hcheck
    have hgives : Gives branching { State.start "a.c" with scope := "f" } () t := hrun
    obtain ⟨ps, t₁, hdecl, hrest⟩ := gives_bind.mp hgives
    obtain ⟨_, t₂, hopened, hbody⟩ := gives_bind.mp hrest
    exact ⟨t, g, .start, hgives, hg, hlength, hopen, hret,
      (flow_check_passes .start).1 _ _ _ _ _ ps t₁ t₂ t g hdecl hopened hbody hg fun _ => hret⟩

end CSubset.Lowering
