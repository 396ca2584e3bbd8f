import CSubset.Proofs.Failure
import CSubset.Proofs.Lowering.Functions
import CSubset.Proofs.Tree.Whole

/-!
# Where lowering stops

Code is appended only while an open block is being filled, so inside a function lowering stops for
two reasons: it rejects a construct, or a child is missing that the node cannot do without. It never
stops because there is no function, no block or a block that has its end (`Stop.IsOrdinary`), and
what it has done until then is to declare variables of the function (`State.Keeps`). In a whole tree
no child is missing, which leaves the first reason.

Main statements: `stopsIn_visit` for the nodes of a body, `stopsIn_visitStatements` for a whole
body. The reasons that come from the check of the control flow are left out; a body only meets them
at its end.
-/

namespace CSubset.Lowering

open IR (Ty Value Op Term Block Func Param Module)

variable {α β : Type} {lacks : Prop} {P : State → Prop} {s s' t : State} {f g : Frame} {e : Stop}
  {n : Node} {func : String} {ns : List (Option Node)} {want : Ty} {x : Value} {index : Nat}

/-! ## Reasons to stop -/

/-- Whether a cause comes from the check of the control flow. -/
def Cause.isFlow : Cause → Bool
  | .flow _ => true
  | _ => false

theorem Cause.ne_flow {c : Cause} (h : c.isFlow = false) (d : IR.Flow.Defect String) :
    c ≠ .flow d := by
  rintro rfl
  cases h

/-- A construct is rejected, but not for the control flow of its body, or a child is missing where
the tree may lack children. -/
def Stop.IsOrdinary (lacks : Prop) : Stop → Prop
  | .rejected r => ∀ d, r.cause ≠ .flow d
  | .fault f => f = .missingNode ∧ lacks

/-- If `x` stops when it is started in `s`, the reason is an ordinary one and the state satisfies
`P`. -/
def StopsIn (lacks : Prop) (P : State → Prop) (x : LowerM α) (s : State) : Prop :=
  ∀ e s', Stops x s e s' → e.IsOrdinary lacks ∧ P s'

namespace StopsIn

variable {c : Cause} {p : Option Place}

theorem of_gives {x : LowerM α} {a : α} (h : Gives x s a s') : StopsIn lacks P x s :=
  fun _ _ hstops => absurd hstops h.not_stops

theorem pure {a : α} : StopsIn lacks P (pure a : LowerM α) s := of_gives (gives_pure.mpr ⟨rfl, rfl⟩)

theorem bind {x : LowerM α} {k : α → LowerM β} (hx : StopsIn lacks P x s)
    (hk : ∀ a t, Gives x s a t → StopsIn lacks P (k a) t) : StopsIn lacks P (x >>= k) s := by
  intro e s' h
  rcases stops_bind.mp h with h | ⟨a, t, ha, h⟩
  · exact hx e s' h
  · exact hk a t ha e s' h

/-- A step that succeeds is taken. -/
theorem after {x : LowerM α} {k : α → LowerM β} {a : α} (hx : Gives x s a t)
    (hk : StopsIn lacks P (k a) t) : StopsIn lacks P (x >>= k) s :=
  fun e s' h => hk e s' (hx.stops_bind_iff.mp h)

theorem map {x : LowerM α} {k : α → β} (hx : StopsIn lacks P x s) : StopsIn lacks P (k <$> x) s :=
  fun e s' h => hx e s' (stops_map.mp h)

theorem reject (hs : P s) (hc : c.isFlow = false) : StopsIn lacks P (reject c p : LowerM α) s := by
  refine .after (gives_get.mpr ⟨rfl, rfl⟩) ?_
  intro e s' h
  obtain ⟨rfl, rfl⟩ := stops_throw.mp h
  exact ⟨Cause.ne_flow hc, hs⟩

theorem rejectAt {n : Node} (hs : P s) (hc : c.isFlow = false) :
    StopsIn lacks P (rejectAt n c : LowerM α) s :=
  reject hs hc

theorem missing (hs : P s) (hlacks : lacks) :
    StopsIn lacks P (faulty .missingNode : LowerM α) s := by
  intro e s' h
  obtain ⟨rfl, rfl⟩ := stops_throw.mp h
  exact ⟨⟨rfl, hlacks⟩, hs⟩

/-- A check that rejects, and what is done if it passes. -/
theorem check {c : Prop} [Decidable c] {cause : Cause} {k : Unit → LowerM α} (hs : P s)
    (hcause : cause.isFlow = false) (hk : ¬c → StopsIn lacks P (k ()) s) :
    StopsIn lacks P (if c then Lowering.reject cause p >>= k else k ()) s := by
  split
  next => exact (reject hs hcause).bind fun _ _ h => absurd h gives_reject
  next hc => exact hk hc

end StopsIn

/-! ## Steps in an open block

An instruction can always be added to an open block, so only the values are to blame. -/

theorem stopsIn_emit (hg : t.frame = some g) (hopen : g.isOpen = true) {op : Op} :
    StopsIn lacks P (emit op) t := by
  obtain ⟨i, b, hb⟩ := Frame.isOpen_iff.mp hopen
  exact .of_gives (gives_emit.mpr ⟨g, i, b, hg, hb, rfl, rfl⟩)

theorem stopsIn_close (hg : t.frame = some g) (hopen : g.isOpen = true) {e : Term} :
    StopsIn lacks P (close e) t := by
  obtain ⟨i, b, hb⟩ := Frame.isOpen_iff.mp hopen
  exact .of_gives (gives_close (u := ()).mpr ⟨g, i, b, hg, hb, rfl⟩)

theorem stopsIn_load (hg : t.frame = some g) (hopen : g.isOpen = true) :
    StopsIn lacks P (load x) t := by
  unfold load
  split
  next => exact stopsIn_emit hg hopen
  next => exact .pure

theorem stopsIn_coerce (ht : P t) (hg : t.frame = some g) (hopen : g.isOpen = true) :
    StopsIn lacks P (coerce n x want) t := by
  unfold coerce
  split
  next => exact .pure
  next =>
    split
    next => exact .rejectAt ht rfl
    next =>
      split
      next => exact stopsIn_emit hg hopen
      next =>
        split
        next => exact stopsIn_emit hg hopen
        next => exact .rejectAt ht rfl

/-- A name that is no variable in force is rejected. -/
theorem stopsIn_resolve (ht : P t) {names : List String} : StopsIn lacks P (resolve n names) t := by
  unfold resolve
  split
  next => exact .rejectAt ht rfl
  next name _ =>
    refine .after (gives_get.mpr ⟨rfl, rfl⟩) ?_
    rcases t.symbol? name with _ | _ | ⟨slot, owner⟩
    · exact .rejectAt ht rfl
    · exact .rejectAt ht rfl
    · cases owner with
      | none => exact .pure
      | some owner =>
        dsimp only
        split
        next => exact .pure
        next => exact .rejectAt ht rfl

theorem stopsIn_shift (ht : P t) (hg : t.frame = some g) (hopen : g.isOpen = true) {op : IR.BinOp}
    {amount : Option Node} : StopsIn lacks P (shift n op x amount) t := by
  unfold shift
  split
  next =>
    split
    next => exact (stopsIn_emit hg hopen).bind fun _ _ _ => .pure
    next => exact .rejectAt ht rfl
  next => exact .rejectAt ht rfl

/-! ## Declarations -/

theorem stopsIn_lowerType (ht : P t) {n : Option Node} : StopsIn lacks P (lowerType n) t := by
  unfold lowerType
  split
  next =>
    split
    next => exact .after (gives_warn (u := ()).mpr rfl) .pure
    next => exact .pure
  next => exact .reject ht rfl

theorem stopsIn_declareHere (hwarned : P t) (hopen : ∀ g, t.frame = some g → g.isOpen = true)
    {x : String} {tag : Coded TypeTag} {ty : Ty} : StopsIn lacks P (do match (← get).frame with
      | none => declareGlobal x n
      | some frame => declareLocal x tag ty frame.func) t := by
  refine .after (gives_get.mpr ⟨rfl, rfl⟩) ?_
  cases hg : t.frame with
  | none =>
    refine .after (gives_get.mpr ⟨rfl, rfl⟩) (.check hwarned rfl fun _ => ?_)
    refine .after (gives_get.mpr ⟨rfl, rfl⟩) ?_
    split
    next =>
      exact .after (gives_modify (u := ()).mpr rfl) (.of_gives (gives_bindSymbol (u := ()).mpr rfl))
    next => exact .of_gives (gives_bindSymbol (u := ()).mpr rfl)
  | some g =>
    obtain ⟨i, b, hb⟩ := Frame.isOpen_iff.mp (hopen g hg)
    exact .of_gives (gives_declareLocal (u := ()).mpr ⟨g, i, b, hg, hb, rfl⟩)

/-- A declaration that stops has only warned before. -/
theorem stopsIn_declareVariable (hwarned : ∀ ws, P (t.warned ws))
    (hopen : ∀ g, t.frame = some g → g.isOpen = true) {type names : Option Node} :
    StopsIn lacks P (declareVariable type names) t := by
  have ht : P t := by simpa using hwarned []
  unfold declareVariable
  split
  next typeStamp tag isConst stamp list stars =>
    dsimp only
    split
    next => exact .rejectAt ht rfl
    next x _ =>
      refine (stopsIn_lowerType ht).bind fun ty t₁ hty => ?_
      obtain ⟨place, tag', _, -, -, rfl⟩ := gives_lowerType.mp hty
      refine .check (hwarned _) rfl fun _ => ?_
      split
      next =>
        have htwice := hwarned (typeWarnings place tag' ++ [⟨some stamp.pos, .pointerIgnored x ty⟩])
        rw [← State.warned_warned] at htwice
        refine .after (gives_warn (u := ()).mpr rfl) ?_
        exact stopsIn_declareHere htwice hopen
      next => exact stopsIn_declareHere (hwarned _) hopen
  next => exact .reject ht rfl

/-- A parameter that is missing, or its name, cannot be blamed. -/
theorem stopsIn_lowerParams (hwarned : ∀ ws, P (t.warned ws))
    (hns : lacks ∨ Node.AllItems Node.Whole ns) :
    StopsIn lacks P (lowerParams func index ns) t := by
  induction ns generalizing t index with
  | nil => exact .pure
  | cons n ns ih =>
    have ht : P t := by simpa using hwarned []
    unfold lowerParams
    split
    next => exact .pure
    next hcons =>
      obtain ⟨rfl, -⟩ := List.cons.inj hcons
      exact .missing ht (hns.elim id fun h => absurd List.mem_cons_self h.1)
    next stamp type names rest hcons =>
      obtain ⟨rfl, rfl⟩ := List.cons.inj hcons
      dsimp only
      split
      next =>
        split
        next => exact .rejectAt ht rfl
        next =>
          refine (stopsIn_lowerType ht).bind fun ty t₁ hty => ?_
          obtain ⟨place, tag, _, -, -, rfl⟩ := gives_lowerType.mp hty
          refine .check (hwarned _) rfl fun _ => ?_
          have hrest : StopsIn lacks P (lowerParams func (index + 1) ns)
              (t.warned (typeWarnings place tag)) := by
            refine ih (fun ws => ?_) (hns.imp_right Node.AllItems.tail)
            rw [State.warned_warned]
            exact hwarned _
          exact hrest.bind fun _ _ _ => .pure
      next hnames =>
        refine .missing ht (hns.elim id fun h => ?_)
        obtain ⟨place, list, stars, hlist⟩ := (h.2 _ List.mem_cons_self).here
        exact absurd hlist (hnames place list stars)
    next => exact .rejectAt ht rfl

/-- A function that cannot be declared has only led to warnings. -/
theorem stopsIn_declareFunction (hwarned : ∀ ws, P (t.warned ws)) {ret params : Option Node}
    {place : Place} {name : String} {isDef : Bool}
    (hparams : lacks ∨ ∀ n, params = some n → n.Whole) :
    StopsIn lacks P (declareFunction ret place name params isDef) t := by
  have ht : P t := by simpa using hwarned []
  unfold declareFunction
  refine (stopsIn_lowerType ht).bind fun ty t₁ hty => ?_
  obtain ⟨typePlace, tag, _, -, -, rfl⟩ := gives_lowerType.mp hty
  have hwhole : lacks ∨ Node.AllItems Node.Whole (paramNodes params) := by
    refine hparams.imp_right fun h => ?_
    unfold paramNodes
    split
    next => exact (h _ rfl).allItems
    next => exact ⟨nofun, nofun⟩
  have hlist : StopsIn lacks P (lowerParams name 0 (paramNodes params))
      (t.warned (typeWarnings typePlace tag)) := by
    refine stopsIn_lowerParams (fun ws => ?_) hwhole
    rw [State.warned_warned]
    exact hwarned _
  refine hlist.bind fun ps t₂ hps => ?_
  obtain ⟨xs, -, -, rfl⟩ := gives_lowerParams.mp hps
  rw [State.warned_warned]
  have hnow := hwarned (typeWarnings typePlace tag ++ xs.flatMap (·.warnings))
  refine .after (gives_get.mpr ⟨rfl, rfl⟩) (.check hnow rfl fun _ => ?_)
  refine .after (gives_get.mpr ⟨rfl, rfl⟩) ?_
  dsimp only
  split
  next =>
    exact .after (gives_modify (u := ()).mpr rfl)
      (.after (gives_bindSymbol (u := ()).mpr rfl) .pure)
  next =>
    refine .after (gives_get.mpr ⟨rfl, rfl⟩) (.check hnow rfl fun _ => .check hnow rfl fun _ => ?_)
    split
    next =>
      exact .after (gives_modify (u := ()).mpr rfl)
        (.after (gives_bindSymbol (u := ()).mpr rfl) .pure)
    next => exact .after (gives_bindSymbol (u := ()).mpr rfl) .pure

/-! ## Nodes of a body

By induction on the node: each child stops for an ordinary reason if it stops, and behind a child
that does not the block is open or ended. -/

/-- What lowering inside the function `func` changes, whether or not it stops: the frame, the
warnings, and the bindings of the function's own variables. -/
structure State.Keeps (s : State) (func : String) (s' : State) : Prop where
  module : s'.module = s.module
  defined : s'.defined = s.defined
  scope : s'.scope = s.scope
  rejections : s'.rejections = s.rejections
  symbols : ∃ new, s'.symbols = new ++ s.symbols ∧ ∀ p ∈ new, ∃ slot, p.2 = .var slot (some func)

theorem State.Within.keeps (hs : s.Within s' f g) : s.Keeps f.func s' :=
  ⟨hs.module, hs.defined, hs.scope, hs.rejections, hs.symbols⟩

theorem State.Keeps.warned (hs : s.Keeps func s') (ws : List Warning) :
    s.Keeps func (s'.warned ws) :=
  ⟨hs.module, hs.defined, hs.scope, hs.rejections, hs.symbols⟩

/-- What the proof about nodes needs to know of a child. -/
def Halts (lacks : Prop) (n : Option Node) : Prop :=
  ∀ m, n = some m → ∀ (s t : State) (f g : Frame), s.Within t f g → g.isOpen = true →
    StopsIn lacks (s.Keeps f.func) (visit m) t

theorem Halts.operand {n : Option Node} (hn : Halts lacks n) (ht : s.Within t f g)
    (hopen : g.isOpen = true) : StopsIn lacks (s.Keeps f.func) (visitOperand want n) t := by
  cases n with
  | none => exact .reject ht.keeps rfl
  | some n =>
    refine (hn n rfl s t f g ht hopen).bind fun v t₁ hv => ?_
    cases v with
    | none =>
      obtain ⟨g₁, hg₁⟩ := within_of_gives_visit n n rfl t none t₁ g hv ht.frame
      exact .rejectAt (ht.trans hg₁).keeps rfl
    | some x =>
      obtain ⟨g₁, hemits₁, hg₁⟩ := (emits_of_gives_visit n t x t₁ hv).within ht.frame
      refine (stopsIn_load hg₁.frame (hemits₁.isOpen hopen)).bind fun y t₂ hy => ?_
      obtain ⟨g₂, hemits₂, hg₂⟩ := (emits_of_gives_load hy).within hg₁.frame
      exact stopsIn_coerce ((ht.trans hg₁).trans hg₂).keeps hg₂.frame
        (hemits₂.isOpen (hemits₁.isOpen hopen))

/-- An operand and what is done with its value. -/
theorem Halts.operand_bind {n : Option Node} (hn : Halts lacks n) (ht : s.Within t f g)
    (hopen : g.isOpen = true) {k : Value → LowerM α}
    (hk : ∀ y t' h, g.Emits h → h.isOpen = true → s.Within t' f h →
      StopsIn lacks (s.Keeps f.func) (k y) t') :
    StopsIn lacks (s.Keeps f.func) (visitOperand want n >>= k) t := by
  refine (hn.operand ht hopen).bind fun y t' hy => ?_
  obtain ⟨h, hemits, ht'⟩ := within_of_gives_visitOperand hy ht.frame
  exact hk y t' h hemits (hemits.isOpen hopen) (ht.trans ht')

theorem stopsIn_visitOperands (hns : ∀ n ∈ ns, Halts lacks n) (ht : s.Within t f g)
    (hopen : g.isOpen = true) {types : List Ty} :
    StopsIn lacks (s.Keeps f.func) (visitOperands types ns) t := by
  induction ns generalizing t g types with
  | nil => exact .pure
  | cons n ns ih =>
    refine (hns n List.mem_cons_self).operand_bind ht hopen fun y t' h _ hh ht' => ?_
    exact (ih (fun m hm => hns m (List.mem_cons_of_mem _ hm)) ht' hh).bind fun _ _ _ => .pure

theorem Halts.statement {n : Option Node} (hn : Halts lacks n) (ht : s.Within t f g)
    (hopen : g.isOpen = true) : StopsIn lacks (s.Keeps f.func) (visitStatement n) t := by
  cases n with
  | none => exact .pure
  | some n => exact (hn n rfl s t f g ht hopen).map

theorem stopsIn_visitStatements (hns : ∀ n ∈ ns, Halts lacks n) (ht : s.Within t f g) :
    StopsIn lacks (s.Keeps f.func) (visitStatements ns) t := by
  induction ns generalizing t g with
  | nil => exact .pure
  | cons n ns ih =>
    refine .after (gives_isOpen.mpr ⟨rfl, rfl⟩) ?_
    split
    next hopen =>
      rw [ht.frame] at hopen
      refine ((hns n List.mem_cons_self).statement ht hopen).bind fun _ t' hn => ?_
      obtain ⟨h, ht'⟩ := Stays.within (fun m _ => within_of_gives_visit m m rfl) hn ht.frame
      exact ih (fun m hm => hns m (List.mem_cons_of_mem _ hm)) (ht.trans ht')
    next => exact .of_gives (gives_warn (u := ()).mpr rfl)

/-- A condition, the branch behind it, and the body in the first of its two blocks. The other blocks
that waited still wait behind the body. -/
theorem stopsIn_branch {cond body : Option Node} (hcond : Halts lacks cond)
    (hbody : Halts lacks body) (ht : s.Within t f g) (hopen : g.isOpen = true) {next other : Nat}
    (hnext : g.Waits next) (hnew : f.blocks.length ≤ next) {k : Unit → LowerM α}
    (hk : ∀ u t' h, s.Within t' f h → (∀ j, g.Waits j → j ≠ next → h.Waits j) →
      StopsIn lacks (s.Keeps f.func) (k u) t') :
    StopsIn lacks (s.Keeps f.func) (do
      let c ← visitOperand .i1 cond
      close (.condBr c next other)
      moveTo (some next)
      let u ← visitStatement body
      k u) t := by
  refine hcond.operand_bind ht hopen fun c t₁ h hemits hh ht₁ => ?_
  obtain ⟨i, b, hb⟩ := Frame.isOpen_iff.mp hh
  have hgrows := hemits.toExtends.trans (Frame.extends_finish hb (.condBr c next other))
  refine .after (gives_close (u := ()).mpr ⟨h, i, b, ht₁.frame, hb, rfl⟩) ?_
  refine .after (gives_moveTo (u := ()).mpr ⟨_, rfl, rfl⟩) ?_
  have ht₂ : s.Within (t₁.withFrame ((h.finish i b (.condBr c next other)).moveTo (some next))) f
      ((h.finish i b (.condBr c next other)).moveTo (some next)) := by
    refine ht₁.leave _ (Frame.extends_finish hb _) ?_
    rintro _ ⟨⟩
    exact hnew
  refine (hbody.statement ht₂ (hnext.extend hgrows).isOpen).bind fun u t₃ hu => ?_
  obtain ⟨l, hl⟩ := Stays.within (fun m _ => within_of_gives_visit m m rfl) hu ht₂.frame
  refine hk u t₃ l (ht₂.trans hl) fun j hj hne => ?_
  exact ((hj.extend hgrows).moveTo fun h => hne (Option.some.inj h).symm).extend hl.grows

section Forms

variable {stamp : Stamp} {cond body left right type : Option Node} (ht : s.Within t f g)
  (hopen : g.isOpen = true)

include ht hopen

/-- An operand stops, or the operator is unknown, or a shift has a bad amount. -/
theorem stopsIn_operator {form : BinaryForm} (hleft : Halts lacks left) (hright : Halts lacks right)
    (hform : form.isStatement = false) (hassign : form ≠ .assign) :
    StopsIn lacks (s.Keeps f.func) (visit (.binary stamp form left right)) t := by
  cases form with
  | arithmetic op | boolean op =>
    rw [visit]
    refine hleft.operand_bind ht hopen fun x t₁ h₁ _ ho₁ ht₁ => ?_
    refine hright.operand_bind ht₁ ho₁ fun y t₂ h₂ _ ho₂ ht₂ => ?_
    cases op with
    | known op => exact (stopsIn_emit ht₂.frame ho₂).bind fun _ _ _ => .pure
    | unknown code => exact .rejectAt ht₂.keeps rfl
  | bitwise op =>
    -- the amount of a shift is no operand
    rw [visit]
    refine hleft.operand_bind ht hopen fun x t₁ h₁ _ ho₁ ht₁ => ?_
    cases op with
    | known op =>
      cases op with
      | shl => exact stopsIn_shift ht₁.keeps ht₁.frame ho₁
      | shr => exact stopsIn_shift ht₁.keeps ht₁.frame ho₁
      | and | or | xor =>
        refine hright.operand_bind ht₁ ho₁ fun y t₂ h₂ _ ho₂ ht₂ => ?_
        exact (stopsIn_emit ht₂.frame ho₂).bind fun _ _ _ => .pure
    | unknown code =>
      exact hright.operand_bind ht₁ ho₁ fun y t₂ h₂ _ _ ht₂ => .rejectAt ht₂.keeps rfl
  | comparison op =>
    -- an unknown operator is rejected before its operands are visited
    cases op with
    | unknown code =>
      rw [visit]
      exact .rejectAt ht.keeps rfl
    | known op =>
      rw [visit]
      refine hleft.operand_bind ht hopen fun x t₁ h₁ _ ho₁ ht₁ => ?_
      refine hright.operand_bind ht₁ ho₁ fun y t₂ h₂ _ ho₂ ht₂ => ?_
      exact (stopsIn_emit ht₂.frame ho₂).bind fun _ _ _ => .pure
  | assign => exact absurd rfl hassign
  | _ => cases hform

theorem stopsIn_assign (hright : Halts lacks right) :
    StopsIn lacks (s.Keeps f.func) (visit (.binary stamp .assign left right)) t := by
  by_cases hleft : ∃ place names stars, left = some (.leaf place (.names names stars))
  · obtain ⟨place, names, stars, rfl⟩ := hleft
    rw [visit]
    refine (stopsIn_resolve ht.keeps).bind fun slot t₁ hslot => ?_
    obtain ⟨-, rfl⟩ := gives_resolve.mp hslot
    refine hright.operand_bind ht hopen fun y t₂ h₂ _ ho₂ ht₂ => ?_
    exact (stopsIn_emit ht₂.frame ho₂).bind fun _ _ _ => .pure
  · rw [visit]
    · exact .rejectAt ht.keeps rfl
    · exact fun place names stars h => hleft ⟨place, names, stars, h⟩

/-- The function is unknown, or an argument stops. Their number is never looked at. -/
theorem stopsIn_call {callee : String} {args : Option Node}
    (hargs : ∀ place form items, args = some (.seq place form items) → ∀ n ∈ items, Halts lacks n) :
    StopsIn lacks (s.Keeps f.func) (visit (.unary stamp (.call callee) args)) t := by
  rw [visit]
  refine .after (gives_get.mpr ⟨rfl, rfl⟩) ?_
  cases t.callee? callee with
  | none => exact .rejectAt ht.keeps rfl
  | some fn =>
    have hvalues : StopsIn lacks (s.Keeps f.func) (visitArgs (fn.params.map (·.ty)) args) t := by
      rw [visitArgs.eq_def]
      split
      next place items => exact stopsIn_visitOperands (hargs place .parameters items rfl) ht hopen
      next => exact .pure
    refine hvalues.bind fun ys t₁ hys => ?_
    have hemits : t.Emits t₁ := by
      rcases gives_visitArgs.mp hys with ⟨place, items, -, hitems⟩ | ⟨-, -, rfl⟩
      · exact emits_of_gives_visitOperands (fun m _ => emits_of_gives_visit m) hitems
      · exact .refl _
    obtain ⟨h, hgh, ht₁⟩ := hemits.within ht.frame
    exact (stopsIn_emit ht₁.frame (hgh.isOpen hopen)).bind fun _ _ _ => .pure

theorem stopsIn_return {value : Option Node} (hvalue : Halts lacks value) :
    StopsIn lacks (s.Keeps f.func) (visit (.unary stamp .ret value)) t := by
  rw [visit]
  refine .after (gives_getFrame.mpr ⟨ht.frame, rfl⟩) ?_
  dsimp only
  split
  next =>
    refine .check ht.keeps rfl fun _ => ?_
    exact (stopsIn_close ht.frame hopen).bind fun _ _ _ => .pure
  next =>
    refine .check ht.keeps rfl fun _ => ?_
    refine hvalue.operand_bind ht hopen fun x t₁ h₁ _ ho₁ ht₁ => ?_
    exact (stopsIn_close ht₁.frame ho₁).bind fun _ _ _ => .pure

theorem stopsIn_declares {names : Option Node} :
    StopsIn lacks (s.Keeps f.func) (declareVariable type names) t := by
  refine stopsIn_declareVariable (fun ws => ht.keeps.warned ws) fun g' hg' => ?_
  rwa [← Option.mem_unique ht.frame hg']

theorem stopsIn_forward {name : Option Node} (hname : lacks ∨ name ≠ none) :
    StopsIn lacks (s.Keeps f.func) (visit (.binary stamp .forward type name)) t := by
  rw [visit.eq_def]
  dsimp only
  split
  next =>
    refine .after (gives_inFunction.mpr ⟨rfl, rfl⟩) (.check ht.keeps rfl fun hnone => ?_)
    simp [ht.frame] at hnone
  next => exact (stopsIn_declares ht hopen).bind fun _ _ _ => .pure
  next => exact .rejectAt ht.keeps rfl
  next => exact .missing ht.keeps (hname.elim id fun h => absurd rfl h)
  next => exact .rejectAt ht.keeps rfl

theorem stopsIn_ifThen (hcond : Halts lacks cond) (hbody : Halts lacks body) :
    StopsIn lacks (s.Keeps f.func) (visit (.binary stamp .ifThen cond body)) t := by
  obtain ⟨i, b, hb⟩ := Frame.isOpen_iff.mp hopen
  rw [visit]
  refine .after (gives_newBlock.mpr ⟨g, ht.frame, rfl, rfl⟩)
    (.after (gives_newBlock.mpr ⟨_, rfl, rfl, rfl⟩) ?_)
  have hblocks := (Frame.extends_addBlock g "if.then").trans (Frame.extends_addBlock _ "if.end")
  have hfilling := (hb.addBlock "if.then").addBlock "if.end"
  refine stopsIn_branch hcond hbody (ht.withFrame (ht.grows.trans hblocks))
    (Frame.isOpen_iff.mpr ⟨i, b, hfilling⟩)
    (hb.waits_pair "if.then" "if.end").1 ht.grows.length fun u t' h ht' _ => ?_
  exact .of_gives (gives_leaveBody.mpr ⟨h, ht'.frame, rfl, rfl⟩)

/-- The open block is ended first, and the next one is open again when the condition is lowered. -/
theorem stopsIn_while (hcond : Halts lacks cond) (hbody : Halts lacks body) :
    StopsIn lacks (s.Keeps f.func) (visit (.binary stamp .while cond body)) t := by
  obtain ⟨i, b, hb⟩ := Frame.isOpen_iff.mp hopen
  obtain ⟨hfilling, hcondWaits, hbodyWaits, -⟩ := hb.waits_addLoop
  rw [visit]
  refine .after (gives_newBlock.mpr ⟨g, ht.frame, rfl, rfl⟩)
    (.after (gives_newBlock.mpr ⟨_, rfl, rfl, rfl⟩)
    (.after (gives_newBlock.mpr ⟨_, rfl, rfl, rfl⟩) ?_))
  refine .after (gives_close (u := ()).mpr ⟨g.addLoop, i, b, rfl, hfilling, rfl⟩)
    (.after (gives_moveTo (u := ()).mpr ⟨_, rfl, rfl⟩) ?_)
  have hblocks : g.Extends g.addLoop := ((Frame.extends_addBlock g "while.cond").trans
    (Frame.extends_addBlock _ "while.body")).trans (Frame.extends_addBlock _ "while.end")
  have hended := Frame.extends_finish hfilling (.br g.blocks.length)
  have hlength := ht.grows.length
  -- the condition has a block of its own, which is open; the block of the body still waits
  have ht₁ : s.Within
      (t.withFrame ((g.addLoop.finish i b (.br g.blocks.length)).moveTo (some g.blocks.length))) f
      ((g.addLoop.finish i b (.br g.blocks.length)).moveTo (some g.blocks.length)) := by
    refine (ht.withFrame (ht.grows.trans hblocks)).leave _ hended ?_
    rintro _ ⟨⟩
    exact hlength
  have hnext : ((g.addLoop.finish i b (.br g.blocks.length)).moveTo (some g.blocks.length)).Waits
      (g.addBlock "while.cond").blocks.length := by
    rw [Frame.length_addBlock]
    exact (hbodyWaits.extend hended).moveTo (by simp)
  refine stopsIn_branch hcond hbody ht₁ (hcondWaits.extend hended).isOpen hnext ?_
    fun u t' h ht' _ => ?_
  · rw [Frame.length_addBlock]
    omega
  · exact .of_gives (gives_leaveBody.mpr ⟨h, ht'.frame, rfl, rfl⟩)

theorem stopsIn_ifThenElse {thenBody elseBody : Option Node} (hcond : Halts lacks cond)
    (hthen : Halts lacks thenBody) (helse : Halts lacks elseBody) :
    StopsIn lacks (s.Keeps f.func)
      (visit (.ternary stamp .ifThenElse cond thenBody elseBody)) t := by
  obtain ⟨i, b, hb⟩ := Frame.isOpen_iff.mp hopen
  obtain ⟨hthenWaits, helseWaits⟩ := hb.waits_pair "if.then" "if.else"
  rw [visit]
  refine .after (gives_newBlock.mpr ⟨g, ht.frame, rfl, rfl⟩)
    (.after (gives_newBlock.mpr ⟨_, rfl, rfl, rfl⟩) ?_)
  have hblocks := (Frame.extends_addBlock g "if.then").trans (Frame.extends_addBlock _ "if.else")
  have hfilling := (hb.addBlock "if.then").addBlock "if.else"
  have hlength := ht.grows.length
  refine stopsIn_branch hcond hthen (ht.withFrame (ht.grows.trans hblocks))
    (Frame.isOpen_iff.mpr ⟨i, b, hfilling⟩)
    hthenWaits hlength fun u t₁ h ht₁ hwaits => ?_
  refine .after (gives_isOpen.mpr ⟨rfl, rfl⟩) (.check ht₁.keeps rfl fun _ => ?_)
  refine .after (gives_moveTo (u := ()).mpr ⟨h, ht₁.frame, rfl⟩) ?_
  rw [Frame.length_addBlock]
  have ht₂ : s.Within (t₁.withFrame (h.moveTo (some (g.blocks.length + 1)))) f
      (h.moveTo (some (g.blocks.length + 1))) := by
    refine ht₁.leave h (.refl h) ?_
    rintro _ ⟨⟩
    exact Nat.le_succ_of_le hlength
  have hopen₂ : (h.moveTo (some (g.blocks.length + 1))).isOpen = true :=
    (hwaits _ helseWaits (by omega)).isOpen
  refine (helse.statement ht₂ hopen₂).bind fun _ t₃ hs => ?_
  obtain ⟨l, hl⟩ := Stays.within (fun m _ => within_of_gives_visit m m rfl) hs ht₂.frame
  have ht₃ := ht₂.trans hl
  refine .after (gives_isOpen.mpr ⟨rfl, rfl⟩) (.check ht₃.keeps rfl fun _ => ?_)
  exact .after (gives_moveTo (u := ()).mpr ⟨l, ht₃.frame, rfl⟩) .pure

end Forms

/-- Lowering a node in an open block stops for an ordinary reason, if it stops. -/
theorem stopsIn_visit (n : Node) (hn : lacks ∨ n.Whole) : Halts lacks (some n) := by
  rintro _ ⟨⟩
  induction n using Tree.ind with
  | leaf l form =>
    intro s t f g ht hopen
    rw [visit]
    cases form with
    | intConst c => exact .pure
    | strConst c => exact .rejectAt ht.keeps rfl
    | identifier c => exact .rejectAt ht.keeps rfl
    | type tag c => exact .rejectAt ht.keeps rfl
    | names names stars => exact (stopsIn_resolve ht.keeps).bind fun _ _ _ => .pure
  | seq l form items ih =>
    intro s t f g ht hopen
    cases form with
    | program =>
      rw [visit]
      refine .after (gives_inFunction.mpr ⟨rfl, rfl⟩) (.check ht.keeps rfl fun hnone => ?_)
      simp [ht.frame] at hnone
    | block =>
      have hitems : ∀ n ∈ items, Halts lacks n := by
        rintro _ hmem m rfl
        exact ih m hmem (hn.imp_right fun h => h.items m hmem)
      rw [visit]
      refine .after (gives_inFunction.mpr ⟨rfl, rfl⟩) (.check ht.keeps rfl fun _ => ?_)
      exact (stopsIn_visitStatements hitems ht).bind fun _ _ _ => .pure
    | parameters =>
      rw [visit]
      exact .rejectAt ht.keeps rfl
  | unary l form child ih ihArgs =>
    intro s t f g ht hopen
    cases form with
    | signature name =>
      rw [visit]
      exact .rejectAt ht.keeps rfl
    | call callee =>
      refine stopsIn_call ht hopen ?_
      rintro place form items hargs _ hmem m rfl
      exact ihArgs place form items hargs m hmem
        (hn.imp_right fun h => (h.child hargs).items m hmem)
    | ret => exact stopsIn_return ht hopen fun m hm => ih m hm (hn.imp_right fun h => h.child hm)
  | binary l form left right ihl ihr =>
    intro s t f g ht hopen
    have hleft : Halts lacks left := fun m hm => ihl m hm (hn.imp_right fun h => h.left hm)
    have hright : Halts lacks right := fun m hm => ihr m hm (hn.imp_right fun h => h.right hm)
    -- all operators stop alike, and every other form has a lemma of its own
    by_cases hform : form.isStatement = false ∧ form ≠ .assign
    · exact stopsIn_operator ht hopen hleft hright hform.1 hform.2
    · cases form with
      | assign => exact stopsIn_assign ht hopen hright
      | declaration =>
        rw [visit]
        exact (stopsIn_declares ht hopen).bind fun _ _ _ => .pure
      | forward => exact stopsIn_forward ht hopen (hn.imp_right fun h => h.here)
      | ifThen => exact stopsIn_ifThen ht hopen hleft hright
      | «while» => exact stopsIn_while ht hopen hleft hright
      | _ => exact absurd ⟨rfl, by simp⟩ hform
  | ternary l form first second third ih₁ ih₂ ih₃ =>
    intro s t f g ht hopen
    cases form with
    | ifThenElse =>
      exact stopsIn_ifThenElse ht hopen
        (fun m hm => ih₁ m hm (hn.imp_right fun h => h.children.1 m hm))
        (fun m hm => ih₂ m hm (hn.imp_right fun h => h.children.2.1 m hm))
        (fun m hm => ih₃ m hm (hn.imp_right fun h => h.children.2.2 m hm))
    | definition =>
      rw [visit.eq_def]
      refine .after (gives_inFunction.mpr ⟨rfl, rfl⟩) (.check ht.keeps rfl fun hnone => ?_)
      simp [ht.frame] at hnone

/-- The parameters can always be stored in an open block. -/
theorem gives_storeParams_of_open {ps : List Param} (hg : t.frame = some g)
    (hopen : g.isOpen = true) : ∃ s', Gives (storeParams func index ps) t () s' := by
  induction ps generalizing t g index with
  | nil => exact ⟨t, gives_storeParams_nil.mpr rfl⟩
  | cons p ps ih =>
    obtain ⟨i, b, hb⟩ := Frame.isOpen_iff.mp hopen
    have hnamed := hb.useName (p.name ++ ".addr")
    have hstored := (hnamed.push (.alloca (g.freshName (p.name ++ ".addr")) p.ty 4)).push
      (.store (.param index p.ty) (.result g.count (.ptr p.ty)))
    obtain ⟨s', hs'⟩ : ∃ s', Gives (storeParams func (index + 1) ps)
        (t.storeParam func index p g i b) () s' :=
      ih rfl (Frame.isOpen_iff.mpr ⟨i, _, hstored⟩)
    exact ⟨s', gives_storeParams_cons.mpr ⟨g, i, b, hg, hb, hs'⟩⟩

/-- The end of a body is rejected only if control gets there in a function that returns a value, as
long as the control flow is sound. -/
theorem stopsIn_closeBody (hg : t.frame = some g) (ht : P t)
    (hflow : IR.Flow.defect? (g.endWith (.ret none)).blocks = none) :
    StopsIn lacks P (closeBody n) t := by
  by_cases hret : g.isOpen = true → g.ret = .void
  · exact .of_gives (gives_closeBody (u := ()).mpr ⟨g, hg, hret, hflow, rfl⟩)
  · obtain ⟨hopen, hvoid⟩ := Classical.not_imp.mp hret
    unfold closeBody
    refine .after (gives_getFrame.mpr ⟨hg, rfl⟩) ?_
    dsimp only
    rw [if_pos hopen, if_neg (by simpa [Ty.isVoid] using hvoid)]
    exact (StopsIn.rejectAt (c := .fallsOffEnd g.func) ht rfl).bind fun _ _ h => absurd
      h gives_rejectAt

end CSubset.Lowering
