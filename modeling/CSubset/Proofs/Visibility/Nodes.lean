import CSubset.Proofs.Lowering.Members
import CSubset.Proofs.Tree.Shape
import CSubset.Proofs.Visibility.Twins

/-!
# Trees of one shape are lowered in parallel

From twins that agree about the free names, lowering two trees of one shape ends in the same way and
leaves twins (`parallel_visit`). So what lowering does to a tree depends on the states only in what
twins have in common; positions and identities of nodes matter to the reports alone. A definition
cannot concern a function in which the twins differ, since those have been defined.
-/

theorem CSubset.Node.Like.samePlace {n n' : Node} {R : Pos → Pos → Prop} (h : Node.Like R n n') :
    Lowering.SamePlace R n.place n'.place :=
  ⟨h.kind, h.near⟩

namespace CSubset.Lowering

open IR (Ty Value Op BinOp Term Block Func Param Module)
open Node (Like Pair Members)

variable {odd : Licence} {used : String → Prop} {s s' t t' : State} {n n' : Node}
  {name x func : String} {ns ms : List (Option Node)} {j index : Nat} {u : Unit} {want ty : Ty}
  {R : Pos → Pos → Prop} {c m params params' type type' : Option Node} {fn : Func}
  {tag : Coded TypeTag} {types : List Ty} {v : Value} {y : LowerM Unit}

theorem kinds_of_rel {c' : Option Node} (h : Option.Rel (Like R) c c') :
    c'.map Tree.kind = c.map Tree.kind := by
  cases h with
  | none => rfl
  | some h => exact congrArg some h.kind

/-! ## Declarations -/

theorem parallel_modify {f g : State → State} (h : (f s).Twins odd used (g t)) :
    Parallel odd used (modify f) (modify g) s t :=
  .gives (gives_modify (u := ()).mpr rfl) (gives_modify.mpr rfl) h

theorem parallel_bindFunc (h : s.Twins odd used t) :
    Parallel odd used (bindSymbol name .func) (bindSymbol name .func) s t :=
  parallel_bindSymbol h nofun

theorem parallel_shift {op : BinOp} {x : Value} {amount amount' : Option Node}
    (hn : SamePlace odd.near n.place n'.place) (hamount : Option.Rel (Like odd.near) amount amount')
    (h : s.Twins odd used t) :
    Parallel odd used (shift n op x amount) (shift n' op x amount') s t := by
  cases hamount with
  | none => exact .rejectAt hn h
  | some hlike =>
    cases hlike with
    | @leaf _ _ form =>
      cases form with
      | intConst k =>
        unfold shift
        dsimp only
        split
        next => exact (parallel_emit h).bind fun _ _ _ _ _ h => .pure h
        next => exact .rejectAt hn h
      | _ => exact .rejectAt hn h
    | _ => exact .rejectAt hn h

theorem parallel_lowerType (htype : Option.Rel (Like odd.near) type type')
    (h : s.Twins odd used t) : Parallel odd used (lowerType type) (lowerType type') s t := by
  cases htype with
  | none => exact .reject .none h
  | some hlike =>
    cases hlike with
    | @leaf _ _ form hpos =>
      cases form with
      | type tag isConst =>
        unfold lowerType
        dsimp only
        split
        next => exact (parallel_warn h (.some hpos)).bind fun _ _ _ _ _ h => .pure h
        next => exact .pure h
      | _ => exact .reject .none h
    | _ => exact .reject .none h

theorem parallel_declareGlobal (hn : SamePlace odd.near n.place n'.place)
    (h : s.Twins odd used t) :
    Parallel odd used (declareGlobal x n) (declareGlobal x n') s t := by
  refine .read ?_
  rw [h.hasFunc]
  refine .check hn h fun _ => .read ?_
  rw [h.hasGlobal]
  split
  next =>
    exact (parallel_modify (h.addGlobal _)).bind fun _ _ _ _ _ h => parallel_bindSymbol h nofun
  next => exact parallel_bindSymbol h nofun

theorem parallel_declareLocal (h : s.Twins odd used t)
    (hfunc : func ∈ s.defined) :
    Parallel odd used (declareLocal x tag ty func) (declareLocal x tag ty func) s t := by
  refine (parallel_newSlot h).bind fun slot s₁ t₁ hslot _ h => parallel_bindSymbol h ?_
  obtain ⟨f, i, b, -, -, -, rfl⟩ := gives_newSlot.mp hslot
  rintro _ _ ⟨⟩
  exact hfunc

theorem parallel_declareHere
    (hn : SamePlace odd.near n.place n'.place) (h : s.Twins odd used t) :
    Parallel odd used (do
      match (← get).frame with
      | none => declareGlobal x n
      | some frame => declareLocal x tag ty frame.func) (do
      match (← get).frame with
      | none => declareGlobal x n'
      | some frame => declareLocal x tag ty frame.func) s t := by
  refine .read ?_
  rw [h.frame]
  cases hf : s.frame with
  | none => exact parallel_declareGlobal hn h
  | some f => exact parallel_declareLocal h (h.current f hf)

/-- Both runs declare the variable, or reject it for the same cause. -/
theorem parallel_declareVariable {names names' : Option Node}
    (htype : Option.Rel (Like odd.near) type type')
    (hnames : Option.Rel (Like odd.near) names names') (h : s.Twins odd used t) :
    Parallel odd used (declareVariable type names) (declareVariable type' names') s t := by
  by_cases hparts : ∃ place tag isConst stamp list stars,
      type = some (.leaf place (.type tag isConst)) ∧ names = some (.leaf stamp (.names list stars))
  · obtain ⟨place, tag, isConst, stamp, list, stars, rfl, rfl⟩ := hparts
    obtain ⟨_, rfl, hlike⟩ := eq_some_of_rel htype rfl
    cases hlike
    obtain ⟨_, rfl, hlike⟩ := eq_some_of_rel hnames rfl
    obtain ⟨hpos⟩ := hlike
    have hnode := (.leaf hpos : Like _ (.leaf _ (.names list stars)) _).samePlace
    unfold declareVariable
    dsimp only
    cases Tree.singleName? list with
    | none => exact .rejectAt hnode h
    | some x =>
      refine (parallel_lowerType htype h).bind fun ty _ _ _ _ h => .check hnode h fun _ => ?_
      split
      next =>
        exact (parallel_warn h (.some hpos)).bind fun _ _ _ _ _ h => parallel_declareHere hnode h
      next => exact parallel_declareHere hnode h
  · have hparts' : ¬∃ place tag isConst stamp list stars, type' =
        some (.leaf place (.type tag isConst)) ∧
        names' = some (.leaf stamp (.names list stars)) := by
      rintro ⟨place, tag, isConst, stamp, list, stars, rfl, rfl⟩
      cases htype with
      | some hlike =>
        cases hlike
        cases hnames with
        | some hlike =>
          cases hlike
          exact hparts ⟨_, _, _, _, _, _, rfl, rfl⟩
    -- without a type or names the declaration is incomplete, and nothing is to blame
    have hreject : ∀ {a b : Option Node}, (¬∃ place tag isConst stamp list stars,
        a = some (.leaf place (.type tag isConst)) ∧ b = some (.leaf stamp (.names list stars))) →
        declareVariable a b = reject .incompleteDeclaration none := by
      intro a b hab
      unfold declareVariable
      split
      next => exact absurd ⟨_, _, _, _, _, _, rfl, rfl⟩ hab
      next => rfl
    rw [hreject hparts, hreject hparts']
    exact .reject .none h

/-! ## Functions -/

/-- Parameters are lowered without a look at the names in force. -/
theorem parallel_lowerParams {ns' : List (Option Node)}
    (hns : List.Forall₂ (Option.Rel (Like odd.near)) ns ns') (h : s.Twins odd used t) :
    Parallel odd used (lowerParams func index ns) (lowerParams func index ns') s t := by
  induction hns generalizing s t index with
  | nil => exact .pure h
  | cons hfirst _ ih =>
    cases hfirst with
    | none => exact .faulty h
    | some hlike =>
      have hnode := hlike.samePlace
      cases hlike with
      | @binary _ _ form _ _ _ _ _ htype hnames =>
        cases form with
        | declaration =>
          cases hnames with
          | none => exact .faulty h
          | some hlike =>
            cases hlike with
            | @leaf _ _ form =>
              cases form with
              | names list stars =>
                rw [lowerParams, lowerParams]
                dsimp only
                cases Tree.singleName? list with
                | none => exact .rejectAt hnode h
                | some x =>
                  refine (parallel_lowerType htype h).bind fun ty _ _ _ _ h => .check
                    hnode h fun _ => ?_
                  exact (ih h).bind fun _ _ _ _ _ h => .pure h
              | _ => exact .faulty h
            | _ => exact .faulty h
        | _ => exact .rejectAt hnode h
      | _ => exact .rejectAt hnode h

theorem paramNodes_like
    (hparams : Option.Rel (Like R) params params') :
    List.Forall₂ (Option.Rel (Like R)) (paramNodes params) (paramNodes params') := by
  cases hparams with
  | none => exact .nil
  | some hlike =>
    cases hlike with
    | @seq _ _ form _ _ _ hitems =>
      cases form with
      | parameters => exact hitems
      | _ => exact .nil
    | _ => exact .nil

theorem SameType.sameSignature {fn' : Func} (h : SameType fn fn') (ret : Ty) (params : List Param) :
    Lowering.sameSignature fn' ret params = Lowering.sameSignature fn ret params := by
  unfold Lowering.sameSignature
  rw [h.ret, h.params]

/-- A function is declared alike in both, since the functions agree. -/
theorem parallel_declareFunction {ret ret' : Option Node} {place place' : Place} {isDef : Bool}
    (hplace : SamePlace odd.near place place') (hret : Option.Rel (Like odd.near) ret ret')
    (hparams : Option.Rel (Like odd.near) params params') (h : s.Twins odd used t) :
    Parallel odd used (declareFunction ret place name params isDef)
      (declareFunction ret' place' name params' isDef) s t := by
  refine (parallel_lowerType hret h).bind fun ty _ _ _ _ h => ?_
  refine (parallel_lowerParams (paramNodes_like hparams) h).bind fun ps s₁ t₁ _ _ h => .read ?_
  rw [h.hasGlobal]
  refine .check hplace h fun _ => .read ?_
  rcases rel_cases (h.funcs name) with ⟨hs, ht⟩ | ⟨fn, fn', hs, ht, hsame⟩
  · rw [hs, ht]
    refine (parallel_modify (h.addFunc _)).bind fun _ _ _ _ _ h => ?_
    exact (parallel_bindFunc h).bind fun _ _ _ _ _ h => .pure h
  · rw [hs, ht]
    refine .read ?_
    rw [h.defined]
    refine .check hplace h fun _ => ?_
    rw [hsame.sameSignature]
    refine .check hplace h fun _ => ?_
    split
    next =>
      refine (parallel_modify (h.setParams name _)).bind fun _ _ _ _ _ h => ?_
      exact (parallel_bindFunc h).bind fun _ _ _ _ _ h => .pure h
    next => exact (parallel_bindFunc h).bind fun _ _ _ _ _ h => .pure h

/-- A function that can be defined has not been defined. -/
theorem State.Twins.not_mem_defined (h : s.Twins odd used t) {sig : Signature} {m : Module}
    (hdecl : DeclaresFunction s.defined name sig true s.module m) : name ∉ s.defined := by
  cases hdecl with
  | first hnone => exact fun hmem => h.declared name hmem hnone
  | again fn _ hdef _ => exact hdef rfl

theorem parallel_storeParams {ps : List Param} (h : s.Twins odd used t) (hfunc : func ∈ s.defined) :
    Parallel odd used (storeParams func index ps) (storeParams func index ps) s t := by
  induction ps generalizing s t index with
  | nil => exact .pure h
  | cons p ps ih =>
    refine (parallel_newSlot h).bind fun slot s₁ _ hslot _ h => ?_
    obtain ⟨f, i, b, -, -, -, rfl⟩ := gives_newSlot.mp hslot
    refine (parallel_emit h).bind fun _ s₂ _ hstore _ h => ?_
    obtain ⟨g, j, c, -, -, -, rfl⟩ := gives_emit.mp hstore
    refine (parallel_bindSymbol h ?_).bind fun _ s₃ _ hbind _ h => ?_
    · rintro _ _ ⟨⟩
      exact hfunc
    · obtain rfl := gives_bindSymbol.mp hbind
      exact ih h hfunc

/-- Both bodies begin alike, with the parameters in slots. -/
theorem State.Twins.opened (h : s.Twins odd used t) (hname : name ∉ s.defined)
    (hfn : s.module.func? name = some fn) :
    (s.opened name fn).Twins odd used (t.opened name fn) := by
  let renamed := Frame.renameParams ⟨name, fn.ret, [], none, [], 0⟩ fn.params
  let f := (renamed.2.addBlock "entry").moveTo (some 0)
  have hfunc : f.func = name := by
    obtain ⟨names, hnames⟩ := Frame.renameParams_frame ⟨name, fn.ret, [], none, [], 0⟩ fn.params
    show renamed.2.func = name
    rw [show renamed.2 = _ from hnames]
  have hbegun := h.define (f := f) (hfunc ▸ hname) (by rw [hfunc, hfn]; exact nofun)
  have hopened := hbegun.setParams name renamed.1
  rw [hfunc] at hopened
  exact hopened

/-- The first block of a function is begun, which was not defined before. -/
theorem parallel_openBody {params : List Param} (h : s.Twins odd used t)
    (hname : name ∉ s.defined) :
    Parallel odd used (openBody name params) (openBody name params) s t := by
  have hother : ¬odd.funcs name := fun hodd => hname (h.ended name hodd)
  refine .read ?_
  rw [h.others name hother]
  cases hfn : s.module.func? name with
  | none => exact .faulty h
  | some fn =>
    refine .after (gives_modify (u := ()).mpr rfl) (gives_modify (u := ()).mpr rfl) ?_
    refine .after ((gives_renameParams rfl).mpr ⟨rfl, rfl⟩)
      ((gives_renameParams rfl).mpr ⟨rfl, rfl⟩) ?_
    refine .after (gives_modify (u := ()).mpr rfl) (gives_modify (u := ()).mpr rfl) ?_
    refine .after (gives_newBlock.mpr ⟨_, rfl, rfl, rfl⟩) (gives_newBlock.mpr ⟨_, rfl, rfl, rfl⟩) ?_
    refine .after (gives_moveTo (u := ()).mpr ⟨_, rfl, rfl⟩)
      (gives_moveTo (u := ()).mpr ⟨_, rfl, rfl⟩) ?_
    rw [Frame.renameParams_blocks]
    exact parallel_storeParams (h.opened hname hfn) List.mem_cons_self

theorem parallel_deliver (hn : SamePlace odd.near n.place n'.place) (h : s.Twins odd used t) :
    Parallel odd used (deliver n) (deliver n') s t := by
  refine parallel_getFrame h fun f _ => ?_
  cases IR.Flow.defect? f.blocks with
  | some defect => exact .rejectAt hn h
  | none => exact parallel_modify (h.setBlocks f.func f.blocks)

theorem parallel_closeBody (hn : SamePlace odd.near n.place n'.place) (h : s.Twins odd used t) :
    Parallel odd used (closeBody n) (closeBody n') s t := by
  refine parallel_getFrame h fun f _ => ?_
  dsimp only
  split
  next =>
    split
    next => exact (parallel_close h).bind fun _ _ _ _ _ h => parallel_deliver hn h
    next => exact Parallel.bind (.rejectAt hn h) fun _ _ _ hx _ _ => absurd hx gives_rejectAt
  next => exact parallel_deliver hn h

theorem parallel_insideFunction {x : LowerM Unit}
    (hxy : ∀ {s t : State}, s.Twins odd used t → Parallel odd used x y s t)
    (h : s.Twins odd used t) :
    Parallel odd used (insideFunction name x) (insideFunction name y) s t := by
  cases hxy (h.enter name) with
  | gives hx hy h =>
    exact .gives (gives_insideFunction (u := ()).mpr ⟨_, hx, rfl⟩)
      (gives_insideFunction.mpr ⟨_, hy, rfl⟩) h.leave
  | stops hx hy he h =>
    exact .stops (stops_insideFunction.mpr ⟨_, hx, rfl⟩)
      (stops_insideFunction.mpr ⟨_, hy, rfl⟩) he h.leave

/-- What is rejected in one run is rejected in the other and recorded in both. -/
theorem parallel_recording {x : LowerM Unit} (hxy : Parallel odd used x y s t) :
    Parallel odd used (recording x) (recording y) s t := by
  cases hxy with
  | gives hx hy h => exact .gives (gives_recording.mpr (.inl hx)) (gives_recording.mpr (.inl hy)) h
  | @stops e e' _ _ hx hy he h =>
    rcases e with r | fault <;> rcases e' with r' | fault'
    · refine .gives (gives_recording (u := ()).mpr (.inr ⟨_, _, hx, rfl⟩))
        (gives_recording.mpr (.inr ⟨_, _, hy, rfl⟩)) (h.reports ?_)
      rcases he with hodd | hr
      · exact .inl hodd
      · exact h.near.imp_right fun hnear =>
          ⟨hnear.warnings, List.rel_append hnear.rejections (.cons hr .nil)⟩
    · cases he
    · cases he
    · obtain rfl : fault = fault' := he
      exact .stops (stops_recording.mpr ⟨_, rfl, hx⟩) (stops_recording.mpr ⟨_, rfl, hy⟩) rfl h

/-! ## Children

What is known of the children is used by way of the functions that visit them. -/

/-- The block that is being filled is open. -/
def State.Open (s : State) : Prop := ∃ f, s.frame = some f ∧ f.isOpen = true

/-- Block `j` waits to be filled. -/
def State.Awaits (s : State) (j : Nat) : Prop := ∃ f, s.frame = some f ∧ f.Waits j

/-- Where a node is met: members of a program anywhere, all others in an open block. -/
def State.Meets (s : State) (n : Node) : Prop :=
  n.kind ∈ [.definition, .forward, .declaration] ∨ s.Open

/-- An operand leaves the block open that it is lowered in. -/
theorem State.Open.operand (hs : s.Open) {n : Option Node}
    (hv : Gives (visitOperand want n) s v s') : s'.Open := by
  obtain ⟨f, hf, hopen⟩ := hs
  obtain ⟨g, hg, hwithin⟩ := within_of_gives_visitOperand hv hf
  exact ⟨g, hwithin.frame, hg.isOpen hopen⟩

theorem State.Awaits.open_moveTo (hs : s.Awaits j)
    (hmove : Gives (moveTo (some j)) s u s') : s'.Open := by
  obtain ⟨f, hf, hwaits⟩ := hs
  obtain ⟨g, hg, rfl⟩ := gives_moveTo.mp hmove
  obtain rfl := Option.mem_unique hf hg
  exact ⟨_, rfl, hwaits.isOpen⟩

theorem State.Awaits.moveTo (hs : s.Awaits j) {c : Option Nat}
    (hmove : Gives (moveTo c) s u s') (hc : c ≠ some j) : s'.Awaits j := by
  obtain ⟨f, hf, hwaits⟩ := hs
  obtain ⟨g, hg, rfl⟩ := gives_moveTo.mp hmove
  obtain rfl := Option.mem_unique hf hg
  exact ⟨_, rfl, hwaits.moveTo hc⟩

theorem State.Awaits.close (hs : s.Awaits j) {e : Term}
    (hclose : Gives (close e) s u s') : s'.Awaits j := by
  obtain ⟨f, hf, hwaits⟩ := hs
  obtain ⟨g, i, b, hg, hb, rfl⟩ := gives_close.mp hclose
  obtain rfl := Option.mem_unique hf hg
  exact ⟨_, rfl, hwaits.extend (Frame.extends_finish hb e)⟩

theorem State.Awaits.operand (hs : s.Awaits j) {n : Option Node}
    (hv : Gives (visitOperand want n) s v s') : s'.Awaits j := by
  obtain ⟨f, hf, hwaits⟩ := hs
  obtain ⟨g, -, hwithin⟩ := within_of_gives_visitOperand hv hf
  exact ⟨g, hwithin.frame, hwaits.extend hwithin.grows⟩

theorem State.Awaits.statement (hs : s.Awaits j) {n : Option Node}
    (hn : Gives (visitStatement n) s u s') : s'.Awaits j := by
  obtain ⟨f, hf, hwaits⟩ := hs
  obtain ⟨g, hwithin⟩ := within_of_gives_statement hn hf
  exact ⟨g, hwithin.frame, hwaits.extend hwithin.grows⟩

/-- A block that is added waits, and so do those that waited before. -/
theorem State.Open.newBlock (hs : s.Open) {i : Nat} (hi : Gives (newBlock x) s i s') :
    s'.Open ∧ s'.Awaits i ∧ ∀ j, s.Awaits j → s'.Awaits j ∧ j ≠ i := by
  obtain ⟨f, hf, hopen⟩ := hs
  obtain ⟨g, hg, rfl, rfl⟩ := gives_newBlock.mp hi
  obtain rfl := Option.mem_unique hf hg
  obtain ⟨k, b, hb⟩ := Frame.isOpen_iff.mp hopen
  refine ⟨⟨_, rfl, Frame.isOpen_iff.mpr ⟨k, b, hb.addBlock x⟩⟩, ⟨_, rfl, hb.waits x⟩, ?_⟩
  rintro j ⟨g, hg, hj⟩
  obtain rfl := Option.mem_unique hf hg
  exact ⟨⟨_, rfl, hj.extend (Frame.extends_addBlock f x)⟩, Nat.ne_of_lt hj.lt⟩

/-- Lowering the one runs in parallel with lowering the other, from any twins. -/
def Parallels (odd : Licence) (used : String → Prop) (n m : Node) : Prop :=
  ∀ ⦃s t : State⦄, s.Twins odd used t → s.Meets n →
    Parallel odd used (visit n) (visit m) s t

/-- What the induction needs to know of a child: it runs in parallel if twins agree about its free
names. -/
def Alongside (odd : Licence) (n m : Node) : Prop :=
  ∀ used : String → Prop, (∀ x ∈ n.free, used x) → Parallels odd used n m

theorem Alongside.child {d : Option Node} (h : Pair odd.near (Alongside odd) c d)
    (hused : ∀ x ∈ Tree.freeChild c, used x) : Pair odd.near (Parallels odd used) c d := by
  refine h.imp fun n m hn hnm => hnm used fun x hx => hused x ?_
  rw [hn]
  exact hx

theorem Alongside.items (h : List.Forall₂ (Pair odd.near (Alongside odd)) ns ms)
    (hused : ∀ x ∈ Tree.freeItems ns, used x) :
    List.Forall₂ (Pair odd.near (Parallels odd used)) ns ms :=
  Node.pairs_imp h fun _ _ hn hnm => hnm used fun x hx => hused x (Tree.mem_freeItems hn hx)

theorem parallel_visitOperand {n : Option Node} (hnm : Pair odd.near (Parallels odd used) n m)
    (hopen : s.Open) (h : s.Twins odd used t) :
    Parallel odd used (visitOperand want n) (visitOperand want m) s t := by
  cases hnm with
  | none => exact .reject .none h
  | some hnm =>
    refine (hnm.2 h (.inr hopen)).bind fun v _ _ _ _ h => ?_
    cases v with
    | none =>
      rw [hnm.1.kind]
      exact .rejectAt hnm.1.samePlace h
    | some x => exact (parallel_load h).bind fun _ _ _ _ _ h => parallel_coerce hnm.1.samePlace h

theorem parallel_visitOperands (hnm : List.Forall₂ (Pair odd.near (Parallels odd used)) ns ms)
    (hopen : s.Open) (h : s.Twins odd used t) :
    Parallel odd used (visitOperands types ns) (visitOperands types ms) s t := by
  induction hnm generalizing types s t with
  | nil => exact .pure h
  | cons hfirst _ ih =>
    refine (parallel_visitOperand hfirst hopen h).bind fun _ _ _ hv _ h => ?_
    exact (ih (hopen.operand hv) h).bind fun _ _ _ _ _ h => .pure h

theorem parallel_visitArgs {args args' : Option Node}
    (hargs : Option.Rel (Like odd.near) args args')
    (hmembers : Members odd.near (Alongside odd) args args')
    (hused : ∀ x ∈ Tree.freeChild args, used x) (hopen : s.Open) (h : s.Twins odd used t) :
    Parallel odd used (visitArgs types args) (visitArgs types args') s t := by
  cases hargs with
  | none => exact .pure h
  | some hlike =>
    cases hlike with
    | @seq _ _ form =>
      cases form with
      | parameters =>
        exact parallel_visitOperands (Alongside.items (hmembers rfl rfl) hused) hopen h
      | _ => exact .pure h
    | _ => exact .pure h

theorem parallel_visitStatement {n : Option Node} (hnm : Pair odd.near (Parallels odd used) n m)
    (hopen : s.Open) (h : s.Twins odd used t) :
    Parallel odd used (visitStatement n) (visitStatement m) s t := by
  cases hnm with
  | none => exact .pure h
  | some hnm => exact (hnm.2 h (.inr hopen)).bind fun _ _ _ _ _ h => .pure h

/-- Behind a statement, twins agree about what it declares as well. -/
theorem State.Twins.after_statement {n : Option Node} (h : s'.Twins odd used t')
    (hn : Gives (visitStatement n) s u s') (hopen : s.Open) :
    s'.Twins odd (fun x => used x ∨ x ∈ Execution.declaredChild false n) t' := by
  obtain ⟨f, hf, hopen⟩ := hopen
  obtain ⟨g, hg⟩ := within_of_gives_statement hn hf
  refine h.widen fun x hx => hx.imp_right fun hx => h.symbols x (.inr ?_)
  cases n with
  | none => cases hx
  | some n => exact (leaves_of_gives_visit n s u s' f g hn hf hg.frame hopen).1 x hx

/-- A name that is declared by a statement may be used by those behind it. -/
theorem parallel_visitStatements (hnm : List.Forall₂ (Pair odd.near (Alongside odd)) ns ms)
    (hused : ∀ x ∈ Tree.freeStatements ns, used x) (h : s.Twins odd used t) :
    Parallel odd used (visitStatements ns) (visitStatements ms) s t := by
  induction hnm generalizing used s t with
  | nil => exact .pure h
  | @cons n m ns ms hfirst _ ih =>
    rw [Tree.freeStatements] at hused
    refine (parallel_isOpen h).bind fun isOpen s₁ t₁ hopen _ h₁ => ?_
    cases isOpen with
    | false =>
      refine parallel_warn h₁ ?_
      cases hfirst with
      | none => exact .none
      | some hnm => exact .some hnm.1.near
    | true =>
      have hopen : s₁.Open := by
        obtain ⟨hisOpen, rfl⟩ := gives_isOpen.mp hopen
        cases hf : s₁.frame with
        | none => simp [hf] at hisOpen
        | some f => exact ⟨f, hf, by simpa [hf] using hisOpen⟩
      have hchild := Alongside.child hfirst fun x hx => hused x (List.mem_append_left _ hx)
      refine (parallel_visitStatement hchild hopen h₁).bind fun _ s₂ t₂ hn _ h₂ => ?_
      -- the statements behind this one may use what it declares
      refine (ih (fun x hx => ?_) (h₂.after_statement hn hopen)).narrow fun x => .inl
      by_cases hx' : x ∈ Execution.declaredChild false n
      · exact .inr hx'
      · exact .inl
          (hused x (List.mem_append_right _ (List.mem_filter.mpr ⟨hx, by simpa using hx'⟩)))

theorem parallel_visitItem {m : Node} (hlike : Like odd.near n m) (hnm : Parallels odd used n m)
    (h : s.Twins odd used t) : Parallel odd used (visitItem n) (visitItem m) s t := by
  unfold visitItem
  rw [hlike.kind]
  split
  next hkind => exact (hnm h (.inl (by simp [hkind]))).bind fun _ _ _ _ _ h => .pure h
  next hkind => exact (hnm h (.inl (by simp [hkind]))).bind fun _ _ _ _ _ h => .pure h
  next hkind => exact (hnm h (.inl (by simp [hkind]))).bind fun _ _ _ _ _ h => .pure h
  next => exact .rejectAt hlike.samePlace h

theorem parallel_members (hnm : List.Forall₂ (Pair odd.near (Parallels odd used)) ns ms)
    (h : s.Twins odd used t) : Parallel odd used (visitTopLevel ns) (visitTopLevel ms) s t := by
  induction hnm generalizing s t with
  | nil =>
    rw [visitTopLevel]
    exact .pure h
  | cons hfirst _ ih =>
    cases hfirst with
    | none =>
      rw [visitTopLevel, visitTopLevel]
      exact .faulty h
    | some hnm =>
      rw [visitTopLevel_some, visitTopLevel_some]
      exact (parallel_recording (parallel_visitItem hnm.1 hnm.2 h)).bind fun _ _ _ _ _ h => ih h

/-! ## Forms

One lemma for each form of a node; `parallel_visit` puts them together. -/

section Forms

variable {stamp stamp' : Stamp}
  {body body' cond cond' left left' name ret ret' right right' type : Option Node} {next : Nat}
  {ps : List Param}

theorem parallel_operator {form : BinaryForm} (hpos : odd.near stamp.pos stamp'.pos)
    (hleft : Pair odd.near (Parallels odd used) left left')
    (hright : Pair odd.near (Parallels odd used) right right') (hform : form.isStatement = false)
    (hassign : form ≠ .assign) (hopen : s.Open) (h : s.Twins odd used t) :
    Parallel odd used (visit (.binary stamp form left right))
      (visit (.binary stamp' form left' right')) s t := by
  cases form with
  | arithmetic op | boolean op =>
    rw [visit, visit]
    refine (parallel_visitOperand hleft hopen h).bind fun x _ _ hx _ h => ?_
    refine (parallel_visitOperand hright (hopen.operand hx) h).bind fun y _ _ _ _ h => ?_
    cases op with
    | known op => exact (parallel_emit h).bind fun _ _ _ _ _ h => .pure h
    | unknown code => exact .rejectAt ⟨rfl, hpos⟩ h
  | bitwise op =>
    rw [visit, visit]
    refine (parallel_visitOperand hleft hopen h).bind fun x _ _ hx _ h => ?_
    cases op with
    | known op =>
      cases op with
      | shl => exact parallel_shift ⟨rfl, hpos⟩ hright.like h
      | shr => exact parallel_shift ⟨rfl, hpos⟩ hright.like h
      | and | or | xor =>
        refine (parallel_visitOperand hright (hopen.operand hx) h).bind fun y _ _ _ _ h => ?_
        exact (parallel_emit h).bind fun _ _ _ _ _ h => .pure h
    | unknown code =>
      exact (parallel_visitOperand hright (hopen.operand hx) h).bind fun _ _ _ _ _ h =>
        .rejectAt ⟨rfl, hpos⟩ h
  | comparison op =>
    cases op with
    | unknown code =>
      rw [visit, visit]
      exact .rejectAt ⟨rfl, hpos⟩ h
    | known op =>
      rw [visit, visit]
      refine (parallel_visitOperand hleft hopen h).bind fun x _ _ hx _ h => ?_
      refine (parallel_visitOperand hright (hopen.operand hx) h).bind fun y _ _ _ _ h => ?_
      exact (parallel_emit h).bind fun _ _ _ _ _ h => .pure h
  | assign => exact absurd rfl hassign
  | _ => cases hform

/-- The target is looked up before the value is lowered. -/
theorem parallel_assign (hpos : odd.near stamp.pos stamp'.pos)
    (hleft : Option.Rel (Like odd.near) left left') (hused : ∀ x ∈ Tree.freeChild left, used x)
    (hright : Pair odd.near (Parallels odd used) right right') (hopen : s.Open)
    (h : s.Twins odd used t) :
    Parallel odd used (visit (.binary stamp .assign left right))
      (visit (.binary stamp' .assign left' right')) s t := by
  by_cases hnames : ∃ place names stars, left = some (.leaf place (.names names stars))
  · obtain ⟨place, names, stars, rfl⟩ := hnames
    obtain ⟨_, rfl, hlike⟩ := eq_some_of_rel hleft rfl
    have hplace := hlike.samePlace
    cases hlike
    rw [visit, visit]
    refine (parallel_resolve hplace hused h).bind fun slot s₁ _ hslot _ h => ?_
    have hopen : s₁.Open := (gives_resolve.mp hslot).2 ▸ hopen
    refine (parallel_visitOperand hright hopen h).bind fun y _ _ _ _ h => ?_
    exact (parallel_emit h).bind fun _ _ _ _ _ h => .pure h
  · have hnames' : ∀ place names stars, left' ≠ some (.leaf place (.names names stars)) := by
      rintro place names stars rfl
      cases hleft with
      | some hlike =>
        cases hlike
        exact hnames ⟨_, _, _, rfl⟩
    rw [visit, visit]
    · rw [kinds_of_rel hleft]
      exact .rejectAt ⟨rfl, hpos⟩ h
    · exact hnames'
    · exact fun place names stars h => hnames ⟨place, names, stars, h⟩

/-- The callee is a name that is used, so it stands for the same function in both. -/
theorem parallel_call {callee : String} {args args' : Option Node}
    (hpos : odd.near stamp.pos stamp'.pos) (hcallee : used callee)
    (hargs : Option.Rel (Like odd.near) args args')
    (hmembers : Members odd.near (Alongside odd) args args')
    (hused : ∀ x ∈ Tree.freeChild args, used x) (hopen : s.Open) (h : s.Twins odd used t) :
    Parallel odd used (visit (.unary stamp (.call callee) args))
      (visit (.unary stamp' (.call callee) args')) s t := by
  rw [visit, visit]
  refine .read ?_
  rcases rel_cases (h.callee? hcallee) with ⟨hs, ht⟩ | ⟨fn, fn', hs, ht, hsame⟩
  · rw [hs, ht]
    exact .rejectAt ⟨rfl, hpos⟩ h
  · -- the two functions may differ in their bodies, which a call does not look at
    rw [hs, ht]
    dsimp only
    rw [hsame.params, hsame.name, hsame.ret]
    refine (parallel_visitArgs hargs hmembers hused hopen h).bind fun _ _ _ _ _ h => ?_
    exact (parallel_emit h).bind fun _ _ _ _ _ h => .pure h

theorem parallel_return {value value' : Option Node} (hpos : odd.near stamp.pos stamp'.pos)
    (hvalue : Pair odd.near (Parallels odd used) value value') (hopen : s.Open)
    (h : s.Twins odd used t) :
    Parallel odd used (visit (.unary stamp .ret value))
      (visit (.unary stamp' .ret value')) s t := by
  rw [visit, visit]
  refine parallel_getFrame h fun f _ => ?_
  cases hvalue with
  | none =>
    simp only [Option.isNone_none, if_true]
    refine .check ⟨rfl, hpos⟩ h fun _ => ?_
    exact (parallel_close h).bind fun _ _ _ _ _ h => .pure h
  | some hnm =>
    simp only [Option.isNone_some, Bool.false_eq_true, if_false]
    refine .check ⟨rfl, hpos⟩ h fun _ => ?_
    refine (parallel_visitOperand (.some hnm) hopen h).bind fun _ _ _ _ _ h => ?_
    exact (parallel_close h).bind fun _ _ _ _ _ h => .pure h

theorem visit_untyped
    (htype : ¬∃ place tag isConst, type = some (.leaf place (.type tag isConst))) :
    visit (.binary stamp .forward type name) = rejectAt (.binary stamp .forward type name)
      .untypedDeclaration := by
  rw [visit.eq_def]
  dsimp only
  split
  case h_5 => rfl
  all_goals exact absurd ⟨_, _, _, rfl⟩ htype

theorem parallel_forward {type' name' : Option Node} (hpos : odd.near stamp.pos stamp'.pos)
    (htype : Option.Rel (Like odd.near) type type') (hname : Option.Rel (Like odd.near) name name')
    (h : s.Twins odd used t) :
    Parallel odd used (visit (.binary stamp .forward type name))
      (visit (.binary stamp' .forward type' name')) s t := by
  by_cases hleaf : ∃ place tag isConst, type = some (.leaf place (.type tag isConst))
  · obtain ⟨place, tag, isConst, rfl⟩ := hleaf
    obtain ⟨_, rfl, hlike⟩ := eq_some_of_rel htype rfl
    cases hlike
    rw [visit.eq_def, visit.eq_def]
    cases hname with
    | none => exact .faulty h
    | some hlike =>
      cases hlike with
      | @leaf _ _ form hnamePos =>
        cases form with
        | names list stars =>
          exact (parallel_declareVariable htype (.some (.leaf hnamePos)) h).bind
            fun _ _ _ _ _ h => .pure h
        | _ => exact .rejectAt ⟨rfl, hpos⟩ h
      | @unary place place' form _ _ hsignature hparams =>
        cases form with
        | signature func =>
          have hplace : SamePlace odd.near ⟨.signature, place.pos⟩ ⟨.signature, place'.pos⟩ :=
            ⟨rfl, hsignature⟩
          refine (parallel_inFunction h).bind fun inside _ _ _ _ h => .check
            ⟨rfl, hpos⟩ h fun _ => ?_
          exact (parallel_declareFunction hplace htype hparams h).bind fun _ _ _ _ _ h => .pure h
        | _ => exact .rejectAt ⟨rfl, hpos⟩ h
      | _ => exact .rejectAt ⟨rfl, hpos⟩ h
  · have hleaf' : ¬∃ place tag isConst, type' = some (.leaf place (.type tag isConst)) := by
      rintro ⟨place, tag, isConst, rfl⟩
      cases htype with
      | some hlike =>
        cases hlike
        exact hleaf ⟨_, _, _, rfl⟩
    rw [visit_untyped hleaf, visit_untyped hleaf']
    exact .rejectAt ⟨rfl, hpos⟩ h

/-- A condition and the body behind it. What follows the body may use what the body declares, and
finds the blocks that waited still waiting. -/
theorem parallel_branch {other : Nat} {α : Type}
    {k k' : Unit → LowerM α} (hcond : Pair odd.near (Parallels odd used) cond cond')
    (hbody : Pair odd.near (Parallels odd used) body body') (hopen : s.Open) (hnext : s.Awaits next)
    (hother : s.Awaits other) (hne : next ≠ other)
    (hk : ∀ {s' t' : State}, s'.Awaits other →
      s'.Twins odd (fun x => used x ∨ x ∈ Execution.declaredChild false body) t' →
      Parallel odd used (k ()) (k' ()) s' t') (h : s.Twins odd used t) :
    Parallel odd used (do
      let c ← visitOperand .i1 cond
      close (.condBr c next other)
      moveTo (some next)
      let u ← visitStatement body
      k u) (do
      let c ← visitOperand .i1 cond'
      close (.condBr c next other)
      moveTo (some next)
      let u ← visitStatement body'
      k' u) s t := by
  refine (parallel_visitOperand hcond hopen h).bind fun c s₁ _ hc _ h => ?_
  refine (parallel_close h).bind fun _ s₂ _ hclose _ h => ?_
  refine (parallel_moveTo h).bind fun _ s₃ _ hmove _ h => ?_
  have hopen₃ := ((hnext.operand hc).close hclose).open_moveTo hmove
  have hother₃ := ((hother.operand hc).close hclose).moveTo hmove (by simpa using hne)
  refine (parallel_visitStatement hbody hopen₃ h).bind fun _ s₄ _ hbody _ h => ?_
  exact hk (hother₃.statement hbody) (h.after_statement hbody hopen₃)

theorem parallel_leaveBody {target : Nat} (h : s.Twins odd used t) :
    Parallel odd used (leaveBody target next) (leaveBody target next) s t := by
  refine (parallel_isOpen h).bind fun isOpen _ _ _ _ h => ?_
  cases isOpen with
  | true =>
    refine (parallel_close h).bind fun _ _ _ _ _ h => ?_
    exact (parallel_moveTo h).bind fun _ _ _ _ _ h => .pure h
  | false => exact (parallel_moveTo h).bind fun _ _ _ _ _ h => .pure h

theorem parallel_ifThen (hcond : Pair odd.near (Parallels odd used) cond cond')
    (hbody : Pair odd.near (Parallels odd used) body body') (hopen : s.Open)
    (h : s.Twins odd used t) :
    Parallel odd used (visit (.binary stamp .ifThen cond body))
      (visit (.binary stamp' .ifThen cond' body')) s t := by
  rw [visit, visit]
  refine (parallel_newBlock h).bind fun i s₁ _ hi _ h => ?_
  refine (parallel_newBlock h).bind fun j s₂ _ hj _ h => ?_
  obtain ⟨hopen, hnext, -⟩ := hopen.newBlock hi
  obtain ⟨hopen, hend, hkept⟩ := hopen.newBlock hj
  obtain ⟨hnext, hne⟩ := hkept _ hnext
  refine parallel_branch hcond hbody hopen hnext hend hne (fun _ h => ?_) h
  exact parallel_leaveBody (h.narrow fun x => .inl)

/-- Both loops get their blocks before the condition is lowered. -/
theorem parallel_while (hcond : Pair odd.near (Parallels odd used) cond cond')
    (hbody : Pair odd.near (Parallels odd used) body body') (hopen : s.Open)
    (h : s.Twins odd used t) :
    Parallel odd used (visit (.binary stamp .while cond body))
      (visit (.binary stamp' .while cond' body')) s t := by
  rw [visit, visit]
  refine (parallel_newBlock h).bind fun i s₁ _ hi _ h => ?_
  refine (parallel_newBlock h).bind fun j s₂ _ hj _ h => ?_
  refine (parallel_newBlock h).bind fun k s₃ _ hk _ h => ?_
  refine (parallel_close h).bind fun _ s₄ _ hclose _ h => ?_
  refine (parallel_moveTo h).bind fun _ s₅ _ hmove _ h => ?_
  obtain ⟨hopen, hfirst, -⟩ := hopen.newBlock hi
  obtain ⟨hopen, hnext, hkept⟩ := hopen.newBlock hj
  obtain ⟨-, hend, hkept'⟩ := hopen.newBlock hk
  obtain ⟨hfirst, hij⟩ := hkept _ hfirst
  obtain ⟨hfirst, hik⟩ := hkept' _ hfirst
  obtain ⟨hnext, hne⟩ := hkept' _ hnext
  have hopen := (hfirst.close hclose).open_moveTo hmove
  have hnext := (hnext.close hclose).moveTo hmove (by simpa using hij)
  have hend := (hend.close hclose).moveTo hmove (by simpa using hik)
  refine parallel_branch hcond hbody hopen hnext hend hne (fun _ h => ?_) h
  exact parallel_leaveBody (h.narrow fun x => .inl)

theorem parallel_ifThenElse {thenBody thenBody' elseBody elseBody' : Option Node}
    (hpos : odd.near stamp.pos stamp'.pos) (hcond : Pair odd.near (Parallels odd used) cond cond')
    (hthen : Pair odd.near (Parallels odd used) thenBody thenBody')
    (helse : Pair odd.near (Parallels odd fun x => used x ∨
      x ∈ Execution.declaredChild false thenBody) elseBody elseBody') (hopen : s.Open)
    (h : s.Twins odd used t) :
    Parallel odd used (visit (.ternary stamp .ifThenElse cond thenBody elseBody))
      (visit (.ternary stamp' .ifThenElse cond' thenBody' elseBody')) s t := by
  rw [visit, visit]
  refine (parallel_newBlock h).bind fun i s₁ _ hi _ h => ?_
  refine (parallel_newBlock h).bind fun j s₂ _ hj _ h => ?_
  obtain ⟨hopen, hnext, -⟩ := hopen.newBlock hi
  obtain ⟨hopen, hother, hkept⟩ := hopen.newBlock hj
  obtain ⟨hnext, hne⟩ := hkept _ hnext
  refine parallel_branch hcond hthen hopen hnext hother hne (fun {s₃ _} hother h => ?_) h
  -- the second branch may use what the first one declares
  have hused : ∀ x, used x → used x ∨ x ∈ Execution.declaredChild false thenBody := fun x => .inl
  refine Parallel.narrow ?_ hused
  refine (parallel_isOpen h).bind fun _ s₄ _ hs₄ _ h => .check ⟨rfl, hpos⟩ h fun _ => ?_
  have hother : s₄.Awaits j := (gives_isOpen.mp hs₄).2 ▸ hother
  refine (parallel_moveTo h).bind fun _ s₅ _ hmove _ h => ?_
  refine (parallel_visitStatement helse (hother.open_moveTo hmove) h).bind fun _ _ _ _ _ h => ?_
  refine (parallel_isOpen h).bind fun _ _ _ _ _ h => .check ⟨rfl, hpos⟩ h fun _ => ?_
  exact (parallel_moveTo h).bind fun _ _ _ _ _ h => .pure h

theorem parallel_visitBody {body body' : Node} (hlike : Like odd.near body body')
    (hmembers : Members odd.near (Alongside odd) (some body) (some body'))
    (hused : ∀ x ∈ body.free, used x) (h : s.Twins odd used t) :
    Parallel odd used (visitBody (some body)) (visitBody (some body')) s t := by
  rw [visitBody_some, visitBody_some]
  cases hlike with
  | @seq _ _ form =>
    cases form with
    | block => exact parallel_visitStatements (hmembers rfl rfl) hused h
    | _ => exact .pure h
  | _ => exact .pure h

/-- Behind the declaration of a function, twins agree about its name as well. -/
theorem State.Twins.after_declaration {params params' : Option Node} {place place' : Place}
    {name : String} {ps' : List Param} (h : s'.Twins odd used t')
    (hs : Gives (Lowering.declareFunction ret place name params true) s ps s')
    (ht : Gives (Lowering.declareFunction ret' place' name params' true) t ps' t') :
    s'.Twins odd (fun x => used x ∨ x = name) t' := by
  refine h.widen fun x hx => hx.imp_right fun hx => .inl ?_
  obtain ⟨_, _, -, -, -, -, rfl⟩ := gives_declareFunction.mp hs
  obtain ⟨_, _, -, -, -, -, rfl⟩ := gives_declareFunction.mp ht
  rw [hx]
  exact List.lookup_cons_self.trans List.lookup_cons_self.symm

/-- Once the body is begun, twins agree about the parameters as well. -/
theorem State.Twins.after_opening {name : String} {u : Unit} (h : s'.Twins odd used t')
    (hs : Gives (openBody name ps) s u s') :
    s'.Twins odd (fun x => used x ∨ x ∈ ps.map (·.name)) t' := by
  refine h.widen fun x hx => hx.imp_right fun hx => h.symbols x (.inr ?_)
  obtain ⟨p, hp, rfl⟩ := List.mem_map.mp hx
  obtain ⟨fn, -, hstore⟩ := gives_openBody.mp hs
  obtain ⟨_, _, -, hframe⟩ := State.opened_frame s name fn
  exact owns_of_gives_storeParams hstore hframe rfl p hp

/-- In the body the parameters are in force, and the names that it uses from outside are those of
the tree without them. -/
theorem parallel_definition {signature signature' : Option Node}
    (hpos : odd.near stamp.pos stamp'.pos) (hret : Option.Rel (Like odd.near) ret ret')
    (hsignature : Option.Rel (Like odd.near) signature signature')
    (hbody : Option.Rel (Like odd.near) body body')
    (hmembers : Members odd.near (Alongside odd) body body')
    (hused : ∀ x ∈ Tree.freeChild body, x ∉ Tree.bound signature → used x)
    (h : s.Twins odd used t) :
    Parallel odd used (visit (.ternary stamp .definition ret signature body))
      (visit (.ternary stamp' .definition ret' signature' body')) s t := by
  rw [visit.eq_def, visit.eq_def]
  refine (parallel_inFunction h).bind fun inside _ _ _ _ h => .check ⟨rfl, hpos⟩ h fun _ => ?_
  cases hsignature with
  | none => exact .rejectAt ⟨rfl, hpos⟩ h
  | some hlike =>
    cases hlike with
    | @unary place place' form params params' hplace hparams =>
      cases form with
      | signature name =>
        cases hbody with
        | none => exact .rejectAt ⟨rfl, hpos⟩ h
        | some hlike =>
          refine (parallel_insideFunction (fun h => ?_) h).bind fun _ _ _ _ _ h => .pure h
          have hplace : SamePlace odd.near ⟨.signature, place.pos⟩ ⟨.signature, place'.pos⟩ :=
            ⟨rfl, hplace⟩
          refine (parallel_declareFunction hplace hret hparams h).bind
            fun ps s₁ t₁ hdecl hdecl' h₁ => ?_
          have hnamed := h₁.after_declaration hdecl hdecl'
          obtain ⟨sig, m, hsig, rfl, -, hm, rfl⟩ := gives_declareFunction.mp hdecl
          -- the body may use the function and its parameters
          refine Parallel.narrow ((parallel_openBody hnamed (h.not_mem_defined hm)).bind
            fun _ s₂ t₂ hopen _ h₂ => ?_) fun x => .inl
          have hopened := h₂.after_opening hopen
          refine Parallel.narrow ((parallel_visitBody hlike hmembers (fun x hx => ?_) hopened).bind
            fun _ _ _ _ _ h => ?_) fun x => .inl
          · by_cases hbound : x ∈ Tree.bound (some (.unary place (.signature name) params))
            · rw [Tree.bound, Simulation.paramNames_of_signature hsig, Option.getD_some] at hbound
              rcases List.mem_cons.mp hbound with hx | hx
              · exact .inl (.inr hx)
              · exact .inr hx
            · exact .inl (.inl (hused x hx hbound))
          · exact parallel_closeBody ⟨rfl, hpos⟩ h
      | _ => exact .rejectAt ⟨rfl, hpos⟩ h
    | _ => exact .rejectAt ⟨rfl, hpos⟩ h

end Forms

/-- Trees of one shape are lowered in parallel, as far as twins agree about the free names. -/
theorem parallel_visit {m : Node} (hnm : Like odd.near n m) : Alongside odd n m := by
  refine Like.ind (motive := Alongside odd) ?leaf ?seq ?unary ?binary ?ternary hnm
  case leaf =>
    intro stamp stamp' form hpos used hused s t h hmeets
    rw [visit, visit]
    exact parallel_visitLeaf ⟨rfl, hpos⟩ hused h
  case seq =>
    intro stamp stamp' form items items' hpos hitems used hused s t h hmeets
    cases form with
    | program =>
      rw [visit, visit]
      refine (parallel_inFunction h).bind fun inside _ _ _ _ h => .check ⟨rfl, hpos⟩ h fun _ => ?_
      exact (parallel_members (Alongside.items hitems hused) h).bind fun _ _ _ _ _ h => .pure h
    | block =>
      rw [visit, visit]
      refine (parallel_inFunction h).bind fun inside _ _ _ _ h => .check ⟨rfl, hpos⟩ h fun _ => ?_
      exact (parallel_visitStatements hitems hused h).bind fun _ _ _ _ _ h => .pure h
    | parameters =>
      rw [visit, visit]
      exact .rejectAt ⟨rfl, hpos⟩ h
  case unary =>
    intro stamp stamp' form child child' hpos hchild hmembers used hused s t h hmeets
    -- only members of a program are met outside an open block
    have hopen : s.Open := hmeets.resolve_left (by cases form <;> simp [Tree.kind, UnaryForm.kind])
    have hbelow : ∀ x ∈ Tree.freeChild child, used x :=
      fun x hx => hused x (List.mem_append_right _ hx)
    cases form with
    | signature name =>
      rw [visit, visit]
      exact .rejectAt ⟨rfl, hpos⟩ h
    | call callee =>
      exact parallel_call hpos (hused callee List.mem_cons_self) hchild.like hmembers hbelow hopen h
    | ret => exact parallel_return hpos (Alongside.child hchild hbelow) hopen h
  case binary =>
    intro stamp stamp' form left left' right right' hpos hleft hright used hused s t h hmeets
    by_cases hdecl : form = .declaration ∨ form = .forward
    · rcases hdecl with rfl | rfl
      · rw [visit, visit]
        exact (parallel_declareVariable hleft.like hright.like h).bind fun _ _ _ _ _ h => .pure h
      · exact parallel_forward hpos hleft.like hright.like h
    · have hopen : s.Open := hmeets.resolve_left (by
        cases form with
        | declaration => exact absurd (.inl rfl) hdecl
        | forward => exact absurd (.inr rfl) hdecl
        | _ => simp [Tree.kind, BinaryForm.kind])
      have hfree : (Tree.binary stamp form left right).free = Tree.freeChild left ++
          Tree.freeChild right := by
        cases form with
        | declaration => exact absurd (.inl rfl) hdecl
        | forward => exact absurd (.inr rfl) hdecl
        | _ => rfl
      rw [hfree] at hused
      have hl : ∀ x ∈ Tree.freeChild left, used x := fun x hx => hused x (List.mem_append_left _ hx)
      have hr : ∀ x ∈ Tree.freeChild right, used x :=
        fun x hx => hused x (List.mem_append_right _ hx)
      have hpairs := And.intro (Alongside.child hleft hl) (Alongside.child hright hr)
      cases form with
      | declaration => exact absurd (.inl rfl) hdecl
      | forward => exact absurd (.inr rfl) hdecl
      | assign => exact parallel_assign hpos hleft.like hl hpairs.2 hopen h
      | ifThen => exact parallel_ifThen hpairs.1 hpairs.2 hopen h
      | «while» => exact parallel_while hpairs.1 hpairs.2 hopen h
      | _ => exact parallel_operator hpos hpairs.1 hpairs.2 rfl (by simp) hopen h
  case ternary =>
    intro stamp stamp' form first first' second second' third third' hpos h₁ h₂ h₃ hmembers used
      hused s t h hmeets
    cases form with
    | definition =>
      refine parallel_definition hpos h₁.like h₂.like h₃.like hmembers
        (fun x hx hbound => hused x ?_) h
      exact List.mem_filter.mpr ⟨hx, by simpa using hbound⟩
    | ifThenElse =>
      have hopen : s.Open := hmeets.resolve_left (by simp [Tree.kind, TernaryForm.kind])
      refine parallel_ifThenElse hpos
        (Alongside.child h₁ fun x hx => hused x (List.mem_append_left _ hx))
        (Alongside.child h₂ fun x hx => hused x ?_) (Alongside.child h₃ fun x hx => ?_) hopen h
      · exact List.mem_append_right _ (List.mem_append_left _ hx)
      -- what the first branch declares is in force in the second
      · by_cases hx' : x ∈ Execution.declaredChild false second
        · exact .inr hx'
        · refine .inl (hused x (List.mem_append_right _ (List.mem_append_right _ ?_)))
          exact List.mem_filter.mpr ⟨hx, by simpa using hx'⟩

theorem parallel_visitTopLevel (hnm : List.Forall₂ (Option.Rel (Like odd.near)) ns ms)
    (hused : ∀ x ∈ Tree.freeItems ns, used x) (h : s.Twins odd used t) :
    Parallel odd used (visitTopLevel ns) (visitTopLevel ms) s t := by
  refine parallel_members (Node.pairs_of_like hnm fun n hn m hlike => ?_) h
  exact parallel_visit hlike used fun x hx => hused x (Tree.mem_freeItems hn hx)

end CSubset.Lowering
