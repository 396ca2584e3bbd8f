import CSubset.Proofs.Simulation.Expressions

/-!
# Statements

The code of a statement does what the execution of the statement does: the machine gets to the end
of the code, or it leaves the function with the same value (`simulatedTree`). One lemma for each
form of statement; a loop follows its execution round by round.
-/

namespace CSubset.Simulation

open Lowering Execution
open IR (Ty Value Op Term Instr Block Func Module instrAt? Grow)
open IR.Machine (Datum Activation Caller Config)

variable {dead : Bool} {C : Context} {s s' s₁ : State} {B : Bindings} {f g h : Frame} {i k : Nat}
  {b : Block} {flow : Flow} {st st' st₁ : Store} {a a' : Activation} {callers : List Caller}
  {w : World} {cond body : Option Node} {stamp : Stamp} {v : Option Value} {c : Value}
  {run : Setting → ExecM Flow} {t : Node}

/-! ## Ways to end -/

/-- How the machine stands when a statement has ended: at the end of what frame `g` has, or outside
the function. -/
def Context.Ends (C : Context) (callers : List Caller) (g : Frame) (st st' : Store)
    (a : Activation) : Flow → Prop
  | .next =>
    ∃ a', C.Reaches (.running a callers st.world) (.running a' callers st'.world) ∧ C.Ready g st' a'
  | .returned v => C.Reaches (.running a callers st.world) (IR.Machine.leave v st'.world callers)

theorem Context.Ends.after (hends : C.Ends callers g st₁ st' a' flow)
    (hreach : C.Reaches (.running a callers st.world) (.running a' callers st₁.world)) :
    C.Ends callers g st st' a flow := by
  cases flow with
  | next =>
    obtain ⟨a'', hreach', hready⟩ := hends
    exact ⟨a'', hreach.trans hreach', hready⟩
  | returned v => exact hreach.trans hends

/-- Up to `s'` the declarations of `names` were lowered, the code that was added to `f` does what
`run` does, and the block behind it is open if control passes. The execution counts declarations
behind a return if `dead`. -/
def Follows (dead : Bool) (names : List String) (pass : Bool) (run : Setting → ExecM Flow)
    (s' : State) (f : Frame) (B : Bindings) : Prop :=
  ∃ new g, Bindings.scope new = names.reverse ∧ Bindings.Tracks (new ++ B) s' g ∧ g.isOpen = pass ∧
    ∀ C : Context, C.setting.conv.deadDeclares = dead → C.Covers s' g (new ++ B) →
    ∀ callers st flow st' a, Gives (run C.setting) st flow st' → C.Ready f st a →
    C.Ends callers g st st' a flow

/-- What the proof about statements needs to know of a child. -/
def Simulated (dead : Bool) (n : Option Node) : Prop :=
  ∀ s s' f B, Gives (visitStatement n) s () s' → B.Tracks s f → f.isOpen = true →
    Follows dead (declaredChild dead n) (passesChild n) (fun S => execChild S B.scope n) s' f B

theorem scope_append {new : Bindings} {names : List String} (hnew : new.scope = names.reverse)
    (B : Bindings) : Bindings.scope (new ++ B) = B.scope.add names := by
  rw [Scope.add, ← hnew]
  exact List.map_append ..

/-- The machine takes the jump that the open block has been given. -/
theorem Context.Ready.jump (hready : C.Ready f st a)
    (hcode : Grow (f.endWith (.br k)).blocks C.func.blocks) :
    C.Reaches (.running a callers w) (.running (a.goto k) callers w) := by
  obtain ⟨i, b, hb, -⟩ := hready.position
  rw [Frame.endWith_of_filling hb] at hcode
  exact .step (hready.step_finish hb hcode) .refl

/-- The machine computes a condition and takes the branch that it selects. -/
theorem branch {yes no : Nat} {v : Int32} (hB : B.Tracks s f)
    (hc : Gives (visitOperand .i1 cond) s c s₁) (hg : s₁.frame = some g) (hb : g.Filling i b)
    (hcode : Grow (g.finish i b (.condBr c yes no)).blocks C.func.blocks)
    (hsource : C.source = s₁.module) (hlayout : B.Agrees C.layout)
    (hv : Gives (evalOperand C.setting B.scope cond) st v st₁) (hready : C.Ready f st a) :
    ∃ a₁, C.Reaches (.running a callers st.world)
      (.running (a₁.goto (if v ≠ 0 then yes else no)) callers st₁.world) ∧ C.Ready g st₁ a₁ := by
  have hC : C.Covers s₁ g B := ⟨hsource, (Frame.extends_finish hb _).grow.trans hcode, hlayout⟩
  obtain ⟨a₁, hafter, hop⟩ :=
    Computes.operand (fun t _ => computes_of_gives_visit t) (.inr rfl) hc hB hg hC hv hready
  refine ⟨a₁, hafter.reaches.trans (.step ((hafter.ready.step_finish hb hcode).trans ?_) .refl),
    hafter.ready⟩
  simp [IR.Machine.finish, hop.bool]

/-- Two blocks that are added before a condition wait until it has been lowered. -/
theorem waits_of_condition {x y : String} {j : Nat} {d : Block} (hd : f.Filling j d)
    (hc : Gives (visitOperand .i1 cond) (s.withFrame ((f.addBlock x).addBlock y)) c s₁)
    (hg : s₁.frame = some g) (hb : g.Filling i b) (t : Term) :
    (g.finish i b t).Waits f.blocks.length ∧ (g.finish i b t).Waits (f.blocks.length + 1) := by
  obtain ⟨g', -, hwithin⟩ := within_of_gives_visitOperand hc (State.withFrame_frame s _)
  obtain rfl := Option.mem_unique hg hwithin.frame
  have hgrows := hwithin.grows.trans (Frame.extends_finish hb t)
  exact (hd.waits_pair x y).imp (·.extend hgrows) (·.extend hgrows)

/-! ## Forms of statements -/

/-- A statement that declares nothing and only appends to the frame. -/
theorem Follows.plain {pass : Bool} (hB : B.Tracks s f) (hg : s'.frame = some g)
    (hsymbols : s'.symbols = s.symbols) (hgrows : f.Extends g) (hpass : g.isOpen = pass)
    (hrun : ∀ C : Context, C.Covers s' g B → ∀ callers st flow st' a, Gives (run C.setting) st flow
      st' → C.Ready f st a → C.Ends callers g st st' a flow) : Follows dead [] pass run s' f B :=
  ⟨[], g, rfl, hB.extend hg hsymbols hgrows, hpass, fun C _ => hrun C⟩

/-- An expression as a statement. -/
theorem follows_expression {u : Value} (hu : Gives (visit t) s (some u) s') (hB : B.Tracks s f)
    (hopen : f.isOpen = true)
    (hrun : ∀ S st flow st', Gives (run S) st flow st' → (∃ v, Gives (eval S B.scope t) st v st') ∧
      flow = .next) : Follows dead [] true run s' f B := by
  obtain ⟨g, hfg, rfl⟩ := emits_of_gives_visit t s u s' hu f hB.frame
  refine .plain hB rfl rfl hfg.toExtends (hfg.isOpen hopen) ?_
  intro C hC callers st flow st' a hexec hready
  obtain ⟨⟨v, hv⟩, rfl⟩ := hrun C.setting st flow st' hexec
  obtain ⟨a', hafter, -⟩ :=
    computes_of_gives_visit t s u _ f g B hu hB rfl C hC callers st v st' a hv hready
  exact ⟨a', hafter.reaches, hafter.ready⟩

theorem follows_return_none (hv : Gives (visit (.unary stamp .ret none)) s v s')
    (hB : B.Tracks s f) :
    Follows dead [] false (fun S => exec S B.scope (.unary stamp .ret none : Node)) s' f B := by
  obtain ⟨-, hclose, -⟩ := gives_visit_return_none.mp hv
  obtain ⟨f', i, b, hf', hb, rfl⟩ := gives_close.mp hclose
  obtain rfl := Option.mem_unique hB.frame hf'
  refine .plain hB rfl rfl (Frame.extends_finish hb _) (hb.isOpen_finish _) ?_
  intro C hC callers st flow st' a hexec hready
  obtain ⟨rfl, rfl⟩ : flow = .returned none ∧ st' = st := by simpa [exec] using hexec
  exact .step (hready.step_finish hb hC.code) .refl

theorem follows_return_some {value : Node}
    (hv : Gives (visit (.unary stamp .ret (some value))) s v s') (hB : B.Tracks s f) :
    Follows dead [] false (fun S => exec S B.scope (.unary stamp .ret (some value))) s' f B := by
  obtain ⟨f', x, s₁, hf', hvoid, hx, hclose, -⟩ := gives_visit_return_some.mp hv
  obtain rfl := Option.mem_unique hB.frame hf'
  obtain ⟨g, i, b, hg, hb, rfl⟩ := gives_close.mp hclose
  have hret : f.ret = .i32 := hB.ret.resolve_left hvoid
  obtain ⟨g', hfg, rfl⟩ :=
    emits_of_gives_visitOperand (fun t _ => emits_of_gives_visit t) hx f hB.frame
  obtain rfl := Option.some.inj hg
  refine .plain hB rfl rfl (hfg.toExtends.trans (Frame.extends_finish hb _)) (hb.isOpen_finish _) ?_
  intro C hC callers st flow st' a hexec hready
  obtain ⟨y, hy, rfl⟩ := gives_exec_return.mp hexec
  have hC₁ : C.Covers (s.withFrame g') g' B :=
    ⟨hC.source, (Frame.extends_finish hb _).grow.trans hC.code, hC.layout⟩
  rw [hret] at hx
  obtain ⟨a', hafter, hop⟩ :=
    Computes.operand (fun t _ => computes_of_gives_visit t) (.inl rfl) hx hB rfl hC₁ hy hready
  refine hafter.reaches.trans (.step ((hafter.ready.step_finish hb hC.code).trans ?_) .refl)
  simp [IR.Machine.finish, hop.int]

theorem follows_declaration {x : Variable} (hx : s.Declares x s') (hB : B.Tracks s f)
    (hname : declares? t = some x.name) :
    Follows dead [x.name] true (fun S => execDeclaration S B.scope t) s' f B := by
  obtain ⟨i, b, hb, rfl, hwithin⟩ := hx.within hB.frame
  have hb' := hb.useName x.name
  refine ⟨[(x.name, some f.count)], _, rfl, hB.declare hb (.refl _) rfl rfl, Frame.isOpen_iff.mpr
    ⟨i, _, hb'.push _⟩, ?_⟩
  intro C _ hC callers st flow st' a hexec hready
  obtain ⟨rfl, rfl⟩ := (gives_execDeclaration hname).mp hexec
  have hlength : B.scope.length = B.length := List.length_map ..
  rw [hlength]
  have hafter : C.After callers (f.useName x.name) _ st (st.setLocal B.length C.setting.conv.fresh)
      a (a.allocate C.setting.conv f.count).next :=
    (hready.same hb hb').after hb' hC.code rfl rfl rfl rfl rfl
      (fun _ hk => if_neg (Nat.ne_of_lt hk))
      (hready.vars.allocate hC.layout.1)
  exact ⟨_, hafter.reaches, hafter.ready⟩

/-- The condition picks the branch that execution takes. -/
theorem follows_ifThen (hbody : Simulated dead body)
    (hv : Gives (visit (.binary stamp .ifThen cond body)) s v s') (hB : B.Tracks s f)
    (hopen : f.isOpen = true) :
    Follows dead (declaredChild dead body) true
      (fun S => exec S B.scope (.binary stamp .ifThen cond body)) s' f B := by
  obtain ⟨f', c, s₁, g, i, b, s₂, h, hf', hc, hg, hb, hstmt, hh, rfl, -⟩ := gives_visit_ifThen.mp hv
  obtain rfl := Option.mem_unique hB.frame hf'
  have hadd : f.Extends ((f.addBlock "if.then").addBlock "if.end") :=
    (Frame.extends_addBlock f "if.then").trans (Frame.extends_addBlock _ "if.end")
  have hBadd := hB.extend (State.withFrame_frame s _) rfl hadd
  have hBg := hBadd.operand hc hg
  have hBthen := (hBg.extend (State.withFrame_frame s₁ _) rfl (Frame.extends_finish hb
    (.condBr c f.blocks.length (f.blocks.length + 1)))).moveTo (some f.blocks.length)
  -- the two blocks that were added are empty until they are filled
  obtain ⟨j, d, hd⟩ := Frame.isOpen_iff.mp hopen
  obtain ⟨hthen, hwaits⟩ :=
    waits_of_condition hd hc hg hb (.condBr c f.blocks.length (f.blocks.length + 1))
  have hwithin := within_of_gives_visitStatement hstmt (State.withFrame_frame s₁ _) hh
  have hend := ((hwaits.moveTo (by simp)).extend hwithin.grows).extend
    (Frame.extends_endWith h (.br (f.blocks.length + 1)))
  obtain ⟨new, h', hnew, hBh, -, hrun⟩ := hbody _ _ _ _ hstmt hBthen hthen.isOpen
  obtain rfl := Option.mem_unique hh hBh.frame
  refine ⟨new, _, hnew,
    (hBh.extend (State.withFrame_frame s₂ _) rfl (Frame.extends_endWith h _)).moveTo _,
    hend.isOpen, ?_⟩
  intro C hdead hC callers st flow st' a hexec hready
  have hCh : C.Covers s₂ h (new ++ B) :=
    ⟨hC.source, (Frame.extends_endWith h _).grow.trans hC.code, hC.layout⟩
  have hCthen := hCh.before hwithin
  obtain ⟨x, st₁, hx, hcases⟩ := gives_exec_ifThen.mp hexec
  obtain ⟨a₁, hreach, hready₁⟩ := branch hBadd hc hg hb hCthen.code hCthen.source hC.older.layout hx
    (hready.same hd ((hd.addBlock "if.then").addBlock "if.end"))
  rcases hcases with ⟨rfl, rfl, rfl⟩ | ⟨hx0, hexec⟩
  · rw [if_neg (by simp)] at hreach
    exact ⟨_, hreach, hready₁.goto hend⟩
  · rw [if_pos hx0] at hreach
    have hends := hrun C hdead hCh callers st₁ flow st' _ hexec (hready₁.goto hthen)
    refine Context.Ends.after ?_ hreach
    cases flow with
    | next =>
      obtain ⟨a₂, hreach₂, hready₂⟩ := hends
      exact ⟨_, hreach₂.trans (hready₂.jump hC.code), hready₂.goto hend⟩
    | returned v => exact hends

theorem follows_ifThenElse {thenBody elseBody : Option Node} (hthenBody : Simulated dead thenBody)
    (helseBody : Simulated dead elseBody)
    (hv : Gives (visit (.ternary stamp .ifThenElse cond thenBody elseBody)) s v s')
    (hB : B.Tracks s f) (hopen : f.isOpen = true) :
    Follows dead (declaredChild dead thenBody ++ declaredChild dead elseBody)
      (passesChild thenBody || passesChild elseBody)
        (fun S => exec S B.scope (.ternary stamp .ifThenElse cond thenBody elseBody)) s' f B := by
  obtain ⟨f', c, s₁, g, i, b, s₂, h, s₃, k, hf', hc, hg, hb, hthen, hh, hclosed, helse, hk,
      hclosed', rfl, -⟩ :=
    gives_visit_ifThenElse.mp hv
  obtain rfl := Option.mem_unique hB.frame hf'
  have hadd : f.Extends ((f.addBlock "if.then").addBlock "if.else") :=
    (Frame.extends_addBlock f "if.then").trans (Frame.extends_addBlock _ "if.else")
  have hBadd := hB.extend (State.withFrame_frame s _) rfl hadd
  have hBg := hBadd.operand hc hg
  have hBthen := (hBg.extend (State.withFrame_frame s₁ _) rfl (Frame.extends_finish hb
    (.condBr c f.blocks.length (f.blocks.length + 1)))).moveTo (some f.blocks.length)
  obtain ⟨j, d, hd⟩ := Frame.isOpen_iff.mp hopen
  obtain ⟨hwaits, hwaits'⟩ :=
    waits_of_condition hd hc hg hb (.condBr c f.blocks.length (f.blocks.length + 1))
  have hwithin := within_of_gives_visitStatement hthen (State.withFrame_frame s₁ _) hh
  have hwithin' := within_of_gives_visitStatement helse (State.withFrame_frame s₂ _) hk
  have helseWaits := (hwaits'.moveTo (by simp)).extend hwithin.grows
  obtain ⟨new, h', hnew, hBh, hpass, hrun⟩ := hthenBody _ _ _ _ hthen hBthen hwaits.isOpen
  obtain rfl := Option.mem_unique hh hBh.frame
  obtain ⟨new', k', hnew', hBk, hpass', hrun'⟩ :=
    helseBody _ _ _ _ helse (hBh.moveTo (some (f.blocks.length + 1))) helseWaits.isOpen
  obtain rfl := Option.mem_unique hk hBk.frame
  refine ⟨new' ++ new, k.moveTo none, ?_, ?_, ?_, ?_⟩
  · rw [List.reverse_append, ← hnew, ← hnew']
    exact List.map_append ..
  · rw [List.append_assoc]
    exact hBk.moveTo none
  · rw [← hpass, ← hpass', hclosed, hclosed']
    rfl
  intro C hdead hC callers st flow st' a hexec hready
  rw [List.append_assoc] at hC
  have hCk : C.Covers s₃ k (new' ++ (new ++ B)) := ⟨hC.source, hC.code, hC.layout⟩
  have hCelse := hCk.before hwithin'
  have hCh : C.Covers s₂ h (new ++ B) := ⟨hCelse.source, hCelse.code, hCelse.older.layout⟩
  have hCthen := hCh.before hwithin
  obtain ⟨x, st₁, hx, hcases⟩ := gives_exec_ifThenElse.mp hexec
  obtain ⟨a₁, hreach, hready₁⟩ :=
    branch hBadd hc hg hb hCthen.code hCthen.source hCh.older.layout hx
      (hready.same hd ((hd.addBlock "if.then").addBlock "if.else"))
  refine Context.Ends.after ?_ hreach
  -- neither branch comes to its end, so both have returned
  rcases hcases with ⟨rfl, hexec⟩ | ⟨hx0, hexec⟩
  · rw [hdead, ← scope_append hnew] at hexec
    have hends := hrun' C hdead hCk callers st₁ flow st' _ hexec (hready₁.goto helseWaits)
    rw [if_neg (by simp)]
    cases flow with
    | next =>
      obtain ⟨a₂, -, hready₂⟩ := hends
      simp [hready₂.isOpen] at hclosed'
    | returned v => exact hends
  · have hends := hrun C hdead hCh callers st₁ flow st' _ hexec (hready₁.goto hwaits)
    rw [if_pos hx0]
    cases flow with
    | next =>
      obtain ⟨a₂, -, hready₂⟩ := hends
      simp [hready₂.isOpen] at hclosed
    | returned v => exact hends

/-- By induction on the passes of the loop: after each one, control is at the condition again. -/
theorem follows_while (hbody : Simulated dead body)
    (hv : Gives (visit (.binary stamp .while cond body)) s v s') (hB : B.Tracks s f)
    (hopen : f.isOpen = true) :
    Follows dead (declaredChild dead body) true
      (fun S => exec S B.scope (.binary stamp .while cond body)) s' f B := by
  obtain ⟨f', i, b, c, s₁, g, j, d, s₂, h, hf', hb, hc, hg, hd, hstmt, hh, rfl, -⟩ :=
    gives_visit_while.mp hv
  obtain rfl := Option.mem_unique hB.frame hf'
  have hadd : f.Extends f.addLoop := ((Frame.extends_addBlock f "while.cond").trans
    (Frame.extends_addBlock _ "while.body")).trans (Frame.extends_addBlock _ "while.end")
  have hBcond := (hB.extend (State.withFrame_frame s _) rfl (hadd.trans (Frame.extends_finish hb
    (.br f.blocks.length)))).moveTo (some f.blocks.length)
  have hBg := hBcond.operand hc hg
  have hBbody := (hBg.extend (State.withFrame_frame s₁ _) rfl (Frame.extends_finish hd
    (.condBr c (f.blocks.length + 1) (f.blocks.length + 2)))).moveTo (some (f.blocks.length + 1))
  -- the three blocks that were added are empty until they are filled
  obtain ⟨k, e, he⟩ := Frame.isOpen_iff.mp hopen
  obtain ⟨g', -, hwithin⟩ := within_of_gives_visitOperand hc (State.withFrame_frame s _)
  obtain rfl := Option.mem_unique hg hwithin.frame
  have hwithin' := within_of_gives_visitStatement hstmt (State.withFrame_frame s₁ _) hh
  obtain ⟨heLoop, hcondWaits, hbodyWaits, hendWaits⟩ := he.waits_addLoop
  have hcondWaits := hcondWaits.extend (Frame.extends_finish hb (.br f.blocks.length))
  have hbranch := hwithin.grows.trans
    (Frame.extends_finish hd (.condBr c (f.blocks.length + 1) (f.blocks.length + 2)))
  have hbodyWaits :=
    ((hbodyWaits.extend (Frame.extends_finish hb (.br f.blocks.length))).moveTo
      (by simp)).extend hbranch
  have hendWaits :=
    ((hendWaits.extend (Frame.extends_finish hb (.br f.blocks.length))).moveTo
      (by simp)).extend hbranch
  have hendWaits := ((hendWaits.moveTo (by simp)).extend hwithin'.grows).extend
    (Frame.extends_endWith h (.br f.blocks.length))
  obtain ⟨new, h', hnew, hBh, -, hrun⟩ := hbody _ _ _ _ hstmt hBbody hbodyWaits.isOpen
  obtain rfl := Option.mem_unique hh hBh.frame
  refine ⟨new, _, hnew,
    (hBh.extend (State.withFrame_frame s₂ _) rfl (Frame.extends_endWith h _)).moveTo _,
    hendWaits.isOpen, ?_⟩
  intro C hdead hC callers st flow st' a hexec hready
  have hCh : C.Covers s₂ h (new ++ B) :=
    ⟨hC.source, (Frame.extends_endWith h _).grow.trans hC.code, hC.layout⟩
  have hCbody := hCh.before hwithin'
  have hCg : C.Covers s₁ g (new ++ B) :=
    ⟨hCbody.source, (Frame.extends_finish hd _).grow.trans hCbody.code, hC.layout⟩
  have hCcond := hCg.before hwithin
  -- round by round, each from the block of the condition
  have hrounds : ∀ n st a,
      C.Ready ((f.addLoop.finish i b (.br f.blocks.length)).moveTo (some f.blocks.length)) st a →
      Gives (loop (evalOperand C.setting B.scope cond) (execChild C.setting B.scope body) n) st flow
      st' → C.Ends callers ((h.endWith (.br f.blocks.length)).moveTo (some (f.blocks.length + 2)))
      st st' a flow := by
    intro n
    induction n with
    | zero => exact fun st a _ hloop => absurd hloop gives_throw
    | succ n ih =>
      intro st a hready hloop
      obtain ⟨x, st₁, hx, hcases⟩ := gives_loop_succ.mp hloop
      obtain ⟨a₁, hreach, hready₁⟩ :=
        branch hBcond hc hg hd hCbody.code hCbody.source hC.older.layout hx hready
      refine Context.Ends.after ?_ hreach
      rcases hcases with ⟨rfl, rfl, rfl⟩ | ⟨hx0, hcases⟩
      · rw [if_neg (by simp)]
        exact ⟨_, .refl, hready₁.goto hendWaits⟩
      · rw [if_pos hx0]
        rcases hcases with ⟨st₂, hround, hrest⟩ | ⟨v, hround, rfl⟩
        · obtain ⟨a₂, hreach₂, hready₂⟩ :=
            hrun C hdead hCh callers st₁ .next st₂ _ hround (hready₁.goto hbodyWaits)
          exact (ih st₂ _ (hready₂.goto hcondWaits) hrest).after
            (hreach₂.trans (hready₂.jump hC.code))
        · exact hrun C hdead hCh callers st₁ (.returned v) st' _ hround (hready₁.goto hbodyWaits)
  have hloop : Gives (loop (evalOperand C.setting B.scope cond) (execChild C.setting B.scope body)
    C.setting.rounds)
      st flow st' := by
    simpa only [exec] using hexec
  refine Context.Ends.after (hrounds C.setting.rounds st _ (hready.goto hcondWaits) hloop) ?_
  exact .step ((hready.same he heLoop).step_finish hb hCcond.code) .refl

/-! ## Sequences -/

/-- The code of a statement does what its execution does. -/
def SimulatedTree (dead : Bool) (t : Node) : Prop :=
  ∀ s v s' f B, Gives (visit t) s v s' → B.Tracks s f → f.isOpen = true →
    Follows dead (declared dead t) (passes t) (fun S => exec S B.scope t) s' f B

theorem simulated_of {n : Option Node} (hn : ∀ t, n = some t → SimulatedTree dead t) :
    Simulated dead n := by
  intro s s' f B hs hB hopen
  cases n with
  | some t =>
    obtain ⟨v, hv⟩ : ∃ v, Gives (visit t) s v s' := by simpa [visitStatement] using hs
    exact hn t rfl s v s' f B hv hB hopen
  | none =>
    obtain rfl : s' = s := by simpa [visitStatement] using hs
    refine .plain hB hB.frame rfl (.refl f) hopen ?_
    intro C hC callers st flow st' a hexec hready
    obtain ⟨rfl, rfl⟩ : flow = .next ∧ st' = st := by simpa [execChild] using hexec
    exact ⟨a, .refl, hready⟩

/-- Statements one after the other. Those behind the end of the open block are left out; no
execution gets there. -/
theorem follows_statements {ns : List (Option Node)} (hns : ∀ n ∈ ns, Simulated dead n)
    (hs : Gives (visitStatements ns) s () s') (hB : B.Tracks s f) :
    Follows dead (if f.isOpen || dead then declaredItems dead ns else [])
      (f.isOpen && passesItems ns)
      (fun S => execItems S B.scope ns) s' f B := by
  induction ns generalizing s f B with
  | nil =>
    obtain rfl := gives_visitStatements_nil.mp hs
    simp only [declaredItems, passesItems, ite_self, Bool.and_true]
    refine .plain hB hB.frame rfl (.refl f) rfl ?_
    intro C hC callers st flow st' a hexec hready
    obtain ⟨rfl, rfl⟩ := gives_execItems_nil.mp hexec
    exact ⟨a, .refl, hready⟩
  | cons n ns ih =>
    rcases gives_visitStatements_cons.mp hs with ⟨hopen, s₁, hn, hrest⟩ | ⟨hclosed, rfl⟩
    · have hopen : f.isOpen = true := by simpa [hB.frame] using hopen
      obtain ⟨new, g, hnew, hBg, hpass, hrun⟩ := hns n List.mem_cons_self s s₁ f B hn hB hopen
      obtain ⟨new', h, hnew', hBh, hpass', hrun'⟩ :=
        ih (fun m hm => hns m (List.mem_cons_of_mem _ hm)) hrest hBg
      refine ⟨new' ++ new, h, ?_, ?_, ?_, ?_⟩
      · rw [hopen, Bool.true_or, if_pos rfl, declaredItems, List.reverse_append, ← hnew,
          ← hpass, ← hnew']
        exact List.map_append ..
      · rwa [List.append_assoc]
      · rw [hpass', hpass, hopen, Bool.true_and, passesItems]
      intro C hdead hC callers st flow st' a hexec hready
      rw [List.append_assoc] at hC
      obtain ⟨_, hwithin⟩ := within_of_gives_visitStatements
        (fun _ _ t _ => within_of_gives_visit t t rfl) hrest hBg.frame
      obtain rfl := Option.mem_unique hwithin.frame hBh.frame
      have hCg : C.Covers s₁ g (new ++ B) := (hC.before hwithin).older
      -- execution goes on behind the first statement, or returns in it
      rcases gives_execItems_cons.mp hexec with ⟨st₁, hfirst, hexec⟩ | ⟨v, hfirst, rfl⟩
      · obtain ⟨a₁, hreach, hready₁⟩ := hrun C hdead hCg callers st .next st₁ a hfirst hready
        rw [hdead, ← scope_append hnew] at hexec
        exact (hrun' C hdead hC callers st₁ flow st' a₁ hexec hready₁).after hreach
      · exact hrun C hdead hCg callers st (.returned v) st' a hfirst hready
    · have hclosed : f.isOpen = false := by simpa [hB.frame] using hclosed
      rw [hclosed, Bool.false_or, Bool.false_and]
      refine ⟨(if dead then declaredItems dead (n :: ns) else []).reverse.map (·, none), f, ?_,
        (hB.skip _).extend hB.frame rfl (.refl f), hclosed, ?_⟩
      · simp [Bindings.scope, Function.comp_def]
      · -- control does not get here
        intro C _ hC callers st flow st' a hexec hready
        simp [hready.isOpen] at hclosed

/-- By induction on the statement. -/
theorem simulatedTree (dead : Bool) (t : Node) : SimulatedTree dead t := by
  induction t using inside_ind with
  | outside t hnone =>
    intro s v s' f B hv hB hopen
    cases hB.frame.symm.trans (hnone s v s' hv)
  | expression t ht =>
    intro s v s' f B hv hB hopen
    obtain ⟨u, rfl⟩ := ht.value hv
    cases ht with
    | leaf | call => exact follows_expression hv hB hopen (by simp [exec, and_comm])
    | binary hform =>
      rw [declared_binary hform]
      exact follows_expression hv hB hopen fun S st flow st' => (gives_exec_binary hform).mp
  | block l items ih =>
    intro s v s' f B hv hB hopen
    obtain ⟨-, hitems, -⟩ := gives_visit_block.mp hv
    have hfollows :=
      follows_statements (fun n hn => simulated_of fun t ht => ih t (ht ▸ hn)) hitems hB
    rw [hopen, Bool.true_or, if_pos rfl, Bool.true_and] at hfollows
    simpa only [declared, passes, exec] using hfollows
  | ret l value =>
    intro s v s' f B hv hB hopen
    cases value with
    | none => exact follows_return_none hv hB
    | some value => exact follows_return_some hv hB
  | declaration l form type names hform =>
    intro s v s' f B hv hB hopen
    obtain ⟨x, hx, hdecl⟩ := declares_of_gives_visit hform hv hB.frame
    obtain ⟨-, place, stars, rfl⟩ := Variable.ofNodes?_eq_some hx
    have hname : declares? (.binary l form type (some (.leaf place (.names [x.name] stars)))) =
        some x.name := by
      rcases hform with rfl | rfl <;> rfl
    rcases hform with rfl | rfl <;> exact follows_declaration hdecl hB hname
  | ifThen l cond body ih =>
    exact fun s v s' f B hv hB hopen => follows_ifThen (simulated_of ih) hv hB hopen
  | loop l cond body ih =>
    exact fun s v s' f B hv hB hopen => follows_while (simulated_of ih) hv hB hopen
  | ifThenElse l cond body body' ih ih' =>
    exact fun s v s' f B hv hB hopen => follows_ifThenElse (simulated_of ih)
      (simulated_of ih') hv hB hopen

end CSubset.Simulation
