import CSubset.Proofs.Lowering.Verdicts
import CSubset.Proofs.WellFormed.Trees

/-!
# What lowering rejects in a tree of the right form

Many causes of a rejection are about the tree and not about the program: an operand that is missing,
a type where a value should be, an operator that does not exist (`Cause.isInternal`). In a tree of
the right form none of them comes up, and each rejection blames a node (`plain_of_visitTopLevel`).

That no value is of a type that cannot be converted rests on what the names stand for: variables
hold numbers, and functions take numbers and return a number or nothing (`State.Plain`).
-/

namespace CSubset.Lowering

open IR (Ty Value Op BinOp Term Block Func Module)

/-- A cause that lies in the form of the tree. -/
def Cause.isInternal : Cause → Bool
  | .nameCount _ | .bareIdentifier _ | .nestedProgram | .missingType | .untypedDeclaration
  | .incompleteDeclaration | .severalVariables | .cannotDeclare _ | .nestedDefinition
  | .incompleteDefinition | .nestedPrototype | .parameterKind _ _ _ | .parameterNames _ _
  | .blockOutsideFunction | .typeAsValue _ | .parametersAsValue | .signatureAsValue _
  | .missingOperand | .noValue _ | .cannotConvert _ _ | .arithmeticOperator _ | .bitwiseOperator _
  | .comparisonOperator _ | .booleanOperator _ | .notAssignable none => true
  | _ => false

/-- A rejection that is about the program: it blames a node, for a cause that does not lie in the
form of the tree. -/
def Rejection.IsReport (r : Rejection) : Prop := r.cause.isInternal = false ∧ r.place.isSome

/-- A fault is not reported, so nothing is asked of it. -/
def Stop.IsReport : Stop → Prop
  | .rejected r => r.IsReport
  | .fault _ => True

/-- The type of a function's result. -/
def IsResult (t : Ty) : Prop := t = .void ∨ t = .i32

/-- The type of a number or a truth value. -/
def IsNumber (t : Ty) : Prop := t = .i1 ∨ t = .i32

/-- Variables hold numbers, functions take numbers and return a number or nothing, and what has been
rejected is a report. -/
structure State.Plain (s : State) : Prop where
  slots : ∀ name slot owner, (name, .var slot owner) ∈ s.symbols → slot.ty = .ptr .i32
  funcs : ∀ fn ∈ s.module.funcs, IsResult fn.ret ∧ ∀ p ∈ fn.params, p.ty = .i32
  ret : ∀ f, s.frame = some f → IsResult f.ret
  reports : ∀ r ∈ s.rejections, r.IsReport

/-- From a plain state, in a function or not, the step ends in a plain state, in a function or not,
with a result that satisfies `Q`; or it stops with a report, or with a fault. -/
def Lands {α : Type} (before after : Bool) (x : LowerM α) (Q : α → Prop) : Prop :=
  ∀ s : State, s.Plain → s.frame.isSome = before →
    match x.run.run s with
    | (.ok a, t) => t.Plain ∧ t.frame.isSome = after ∧ Q a
    | (.error e, t) => t.Plain ∧ e.IsReport

section Lands

variable {α β : Type} {p q r : Bool} {P : α → Prop} {Q : β → Prop} {n left right : Node} {v : Value}
  {name : String} {params : List IR.Param} {s : State} {want : Ty}

namespace Lands

theorem pure {a : α} (h : P a) : Lands p p (pure a) P := fun _ hs hframe => ⟨hs, hframe, h⟩

/-- The second step begins where the first one lands. -/
theorem bind {x : LowerM α} {k : α → LowerM β} (hx : Lands p q x P)
    (hk : ∀ a, P a → Lands q r (k a) Q) : Lands p r (x >>= k) Q := by
  intro s hs hframe
  have hrun : (x >>= k).run.run s = ExceptT.bindCont k (x.run.run s).1 (x.run.run s).2 := rfl
  have hfirst := hx s hs hframe
  rw [hrun]
  rcases hresult : x.run.run s with ⟨e | a, t⟩
  · rw [hresult] at hfirst
    exact hfirst
  · rw [hresult] at hfirst
    exact hk a hfirst.2.2 t hfirst.1 hfirst.2.1

theorem read {k : State → LowerM α}
    (hk : ∀ s : State, s.Plain → s.frame.isSome = p → Lands p q (k s) P) :
    Lands p q (get >>= k) P :=
  fun s hs hframe => hk s hs hframe s hs hframe

theorem modify {change : State → State}
    (h : ∀ s : State, s.Plain → s.frame.isSome = p → (change s).Plain ∧
      (change s).frame.isSome = q) : Lands p q (modify change) fun _ => True :=
  fun s hs hframe => ⟨(h s hs hframe).1, (h s hs hframe).2, trivial⟩

theorem faulty (e : Fault) : Lands p q (faulty e) P := fun _ hs _ => ⟨hs, trivial⟩

theorem reject {cause : Cause} (place : Place) (h : cause.isInternal = false) :
    Lands p q (reject cause (some place)) P := fun _ hs _ => ⟨hs, h, rfl⟩

theorem rejectAt (n : Node) {cause : Cause} (h : cause.isInternal = false) :
    Lands p q (rejectAt n cause) P :=
  reject n.place h

theorem ite {c : Prop} [Decidable c] {x y : LowerM α} (hx : c → Lands p q x P)
    (hy : ¬c → Lands p q y P) : Lands p q (if c then x else y) P := by
  split
  next h => exact hx h
  next h => exact hy h

/-- A check that rejects, and what is done if it passes. -/
theorem check {c : Prop} [Decidable c] {cause : Cause} {place : Place} {k : Unit → LowerM α}
    (hcause : cause.isInternal = false) (hk : ¬c → Lands p q (k ()) P) :
    Lands p q (if c then Lowering.reject cause (some place) >>= k else k ()) P := by
  refine ite (fun _ => ?_) hk
  exact Lands.bind (q := p) (P := fun _ => False) (.reject place hcause) nofun

/-- A check that never rejects. -/
theorem skip {c : Prop} [Decidable c] {x y : LowerM α} (hc : ¬c) (hy : Lands p q y P) :
    Lands p q (if c then x else y) P :=
  ite (fun h => absurd h hc) fun _ => hy

theorem mono {x : LowerM α} {P' : α → Prop} (hx : Lands p q x P) (h : ∀ a, P a → P' a) :
    Lands p q x P' := by
  intro s hs hframe
  have hlands := hx s hs hframe
  rcases hresult : x.run.run s with ⟨e | a, t⟩
  · rw [hresult] at hlands
    exact hlands
  · rw [hresult] at hlands
    exact ⟨hlands.1, hlands.2.1, h a hlands.2.2⟩

theorem mapM {γ : Type} {step : γ → LowerM α} {cs : List γ} (h : ∀ c ∈ cs, Lands p p (step c) P) :
    Lands p p (cs.mapM step) fun as => ∀ a ∈ as, P a := by
  induction cs with
  | nil => exact .pure nofun
  | cons c cs ih =>
    obtain ⟨hc, hcs⟩ := List.forall_mem_cons.mp h
    rw [List.mapM_cons]
    exact hc.bind fun a ha => (ih hcs).bind fun as has => .pure (List.forall_mem_cons.mpr ⟨ha, has⟩)

end Lands

/-! ## The body under construction -/

theorem lands_warn (pos : Option Pos) (cause : WarningCause) :
    Lands p p (warn pos cause) fun _ => True :=
  .modify fun _ hs hframe => ⟨⟨hs.slots, hs.funcs, hs.ret, hs.reports⟩, hframe⟩

theorem lands_bindVar {slot : Value} {owner : Option String} (h : slot.ty = .ptr .i32) :
    Lands p p (bindSymbol name (.var slot owner)) fun _ => True := by
  refine .modify fun s hs hframe =>
    ⟨⟨fun name' slot' owner' hmem => ?_, hs.funcs, hs.ret, hs.reports⟩, hframe⟩
  rcases List.mem_cons.mp hmem with heq | hmem
  · obtain ⟨-, rfl, -⟩ : name' = name ∧ slot' = slot ∧ owner' = owner := by simpa using heq
    exact h
  · exact hs.slots name' slot' owner' hmem

theorem lands_bindFunc (name : String) : Lands p p (bindSymbol name .func) fun _ => True := by
  refine .modify fun s hs hframe =>
    ⟨⟨fun name' slot' owner' hmem => ?_, hs.funcs, hs.ret, hs.reports⟩, hframe⟩
  rcases List.mem_cons.mp hmem with heq | hmem
  · simp at heq
  · exact hs.slots name' slot' owner' hmem

theorem lands_getFrame : Lands true true getFrame fun f => IsResult f.ret := by
  refine .read fun s hs _ => ?_
  cases hframe : s.frame with
  | none => exact .faulty .noFunction
  | some frame => exact .pure (hs.ret frame hframe)

theorem lands_setFrame (frame : Frame) (h : IsResult frame.ret) :
    Lands true true (setFrame frame) fun _ => True := by
  refine .modify fun s hs _ => ⟨⟨hs.slots, hs.funcs, fun f hf => ?_, hs.reports⟩, rfl⟩
  exact Option.some.inj hf ▸ h

theorem lands_isOpen : Lands true true isOpen fun _ => True := by
  refine .read fun s _ _ => ?_
  cases s.frame with
  | none => exact .pure trivial
  | some frame => exact .pure trivial

theorem lands_getOpenBlock : Lands true true getOpenBlock fun _ => True := by
  refine lands_getFrame.bind fun frame _ => ?_
  rcases frame.current? with _ | ⟨i, block⟩
  · exact .faulty .noBlock
  · exact .ite (fun _ => .faulty .closedBlock) fun _ => .pure trivial

theorem lands_freshName (base : String) : Lands true true (freshName base) fun _ => True := by
  refine lands_getFrame.bind fun frame hframe => ?_
  exact Lands.bind (lands_setFrame _ hframe) fun _ _ => .pure trivial

theorem lands_newBlock (base : String) : Lands true true (newBlock base) fun _ => True := by
  refine (lands_freshName base).bind fun label _ => lands_getFrame.bind fun frame hframe => ?_
  exact Lands.bind (lands_setFrame _ hframe) fun _ _ => .pure trivial

theorem lands_moveTo (cursor : Option Nat) : Lands true true (moveTo cursor) fun _ => True :=
  lands_getFrame.bind fun _ hframe => lands_setFrame _ hframe

theorem lands_emit (op : Op) : Lands true true (emit op) fun v => v.ty = op.ty := by
  refine lands_getOpenBlock.bind fun _ _ => lands_getFrame.bind fun frame hframe => ?_
  exact Lands.bind (lands_setFrame _ hframe) fun _ _ => .pure rfl

theorem lands_close (term : Term) : Lands true true (close term) fun _ => True :=
  lands_getOpenBlock.bind fun _ _ => lands_getFrame.bind fun _ hframe => lands_setFrame _ hframe

theorem lands_newSlot (name : String) (align : Nat) :
    Lands true true (newSlot name .i32 align) fun v => v.ty = .ptr .i32 :=
  (lands_freshName name).bind fun _ _ => lands_emit _

/-- Inside a function there is a body, and behind it there is none. -/
theorem lands_insideFunction (name : String) {x : LowerM Unit}
    (h : Lands false true x fun _ => True) :
    Lands false false (insideFunction name x) fun _ => True := by
  intro s hs hframe
  have hrun : (insideFunction name x).run.run s = ((x.run.run { s with scope := name }).1,
      { (x.run.run { s with scope := name }).2 with scope := "", frame := none }) := rfl
  have hleft {t : State} (ht : t.Plain) : State.Plain { t with scope := "", frame := none } :=
    ⟨ht.slots, ht.funcs, nofun, ht.reports⟩
  have hinside := h { s with scope := name } ⟨hs.slots, hs.funcs, hs.ret, hs.reports⟩ hframe
  rw [hrun]
  rcases hresult : x.run.run { s with scope := name } with ⟨e | u, t⟩
  · rw [hresult] at hinside
    exact ⟨hleft hinside.1, hinside.2⟩
  · rw [hresult] at hinside
    exact ⟨hleft hinside.1, rfl, trivial⟩

/-! ## Declarations -/

theorem isResult_lowerTag (tag : Coded TypeTag) : IsResult (lowerTag tag) := by
  unfold lowerTag
  split
  · exact .inl rfl
  · exact .inr rfl

theorem lands_lowerType (stamp : Stamp) (tag : Coded TypeTag) (isConst : Bool) :
    Lands p p (lowerType (some (.leaf stamp (.type tag isConst)))) IsResult := by
  refine .ite (fun _ => ?_) fun _ => .pure (isResult_lowerTag tag)
  exact (lands_warn _ _).bind fun _ _ => .pure (isResult_lowerTag tag)

theorem eq_i32_of_not_void {t : Ty} (h : IsResult t) (hvoid : ¬t.isVoid = true) : t = .i32 := by
  rcases h with rfl | rfl
  · exact absurd rfl hvoid
  · rfl

theorem lands_declareGlobal (name : String) (n : Node) :
    Lands p p (declareGlobal name n) fun _ => True := by
  refine .read fun s _ _ => .check rfl fun _ => .read fun s _ _ => ?_
  refine .ite (fun _ => ?_) fun _ => lands_bindVar rfl
  refine Lands.bind (P := fun _ => True) (.modify fun _ hs hframe => ⟨?_, hframe⟩) fun _ _ =>
    lands_bindVar rfl
  exact ⟨hs.slots, hs.funcs, hs.ret, hs.reports⟩

theorem lands_declareLocal (name : String) (tag : Coded TypeTag) (func : String) :
    Lands true true (declareLocal name tag .i32 func) fun _ => True :=
  (lands_newSlot _ _).bind fun _ hslot => lands_bindVar hslot

theorem lands_declareHere (name : String) (tag : Coded TypeTag) (n : Node) :
    Lands p p (do
      match (← get).frame with
      | none => declareGlobal name n
      | some frame => declareLocal name tag .i32 frame.func) fun _ => True := by
  refine .read fun s _ hside => ?_
  cases hframe : s.frame with
  | none => exact lands_declareGlobal name n
  | some frame =>
    obtain rfl : true = p := by simpa [hframe] using hside
    exact lands_declareLocal name tag frame.func

theorem lands_declareVariable {type names : Option Node} (h : Node.IsTyping type names) :
    Lands p p (declareVariable type names) fun _ => True := by
  obtain @⟨_, _, tag, isConst, x, _, stars⟩ := h
  refine (lands_lowerType _ tag isConst).bind fun ty hty => .check rfl fun hvoid => ?_
  obtain rfl := eq_i32_of_not_void hty hvoid
  refine .ite (fun _ => ?_) fun _ => lands_declareHere x tag _
  exact (lands_warn _ _).bind fun _ _ => lands_declareHere x tag _

/-- Parameters that are numbers. -/
abbrev AreNumbers (params : List IR.Param) : Prop := ∀ p ∈ params, p.ty = .i32

theorem lands_lowerParams (func : String) (index : Nat) {params : List (Option Node)}
    (h : Node.AllItems Node.IsParameter params) :
    Lands p p (lowerParams func index params) AreNumbers := by
  induction params generalizing index with
  | nil => exact .pure nofun
  | cons c params ih =>
    obtain ⟨_, rfl, ⟨tag, isConst, _, stars⟩⟩ := h.head
    refine (lands_lowerType _ tag isConst).bind fun ty hty => .check rfl fun hvoid => ?_
    obtain rfl := eq_i32_of_not_void hty hvoid
    exact (ih (index + 1) h.tail).bind fun ps hps => .pure (List.forall_mem_cons.mpr ⟨rfl, hps⟩)

/-- Changing a function keeps a state plain if it keeps the type of the result, and the parameters
are numbers. -/
theorem State.Plain.modifyFunc (hs : s.Plain) (name : String) {change : Func → Func}
    (hret : ∀ fn, (change fn).ret = fn.ret)
    (hparams : ∀ fn, AreNumbers fn.params → AreNumbers (change fn).params) :
    State.Plain { s with module := s.module.modifyFunc name change } := by
  refine ⟨hs.slots, fun fn hfn => ?_, hs.ret, hs.reports⟩
  obtain ⟨fn₀, hmem, rfl⟩ := List.mem_map.mp hfn
  obtain ⟨hresult, hnumbers⟩ := hs.funcs fn₀ hmem
  split
  · exact ⟨(hret fn₀).symm ▸ hresult, hparams fn₀ hnumbers⟩
  · exact ⟨hresult, hnumbers⟩

/-- A function takes numbers, whether it is new or declared before. -/
theorem lands_declareFunction {type signature : Node} {stamp : Stamp} {params : Option Node}
    (h : Node.IsSignature type signature)
    (hsignature : signature = .unary stamp (.signature name) params) (place : Place)
    (forDefinition : Bool) :
    Lands false false (declareFunction (some type) place name params forDefinition) AreNumbers := by
  subst hsignature
  obtain ⟨tag, isConst, _, hparams⟩ := h
  refine (lands_lowerType _ tag isConst).bind fun ret hret =>
    (lands_lowerParams name 0 hparams).bind fun ps hps => ?_
  have hbound : Lands false false (do bindSymbol name .func; return ps) AreNumbers :=
    (lands_bindFunc name).bind fun _ _ => .pure hps
  refine .read fun s _ _ => .check rfl fun _ => .read fun s _ _ => ?_
  cases s.module.func? name with
  | none =>
    refine Lands.bind (q := false) (P := fun _ => True) (.modify fun s hs hframe => ⟨?_, hframe⟩)
      fun _ _ => hbound
    refine ⟨hs.slots, fun fn hfn => ?_, hs.ret, hs.reports⟩
    rcases List.mem_append.mp hfn with hfn | hfn
    · exact hs.funcs fn hfn
    · obtain rfl := List.mem_singleton.mp hfn
      exact ⟨hret, hps⟩
  | some f =>
    refine .read fun s _ _ => .check rfl fun _ => .check rfl fun _ => ?_
    refine .ite (fun _ => ?_) fun _ => hbound
    refine Lands.bind (q := false) (P := fun _ => True) (.modify fun s hs hframe => ⟨?_, hframe⟩)
      fun _ _ => hbound
    refine hs.modifyFunc name (fun _ => rfl) fun _ _ p hp => ?_
    obtain ⟨q, hq, rfl⟩ := List.mem_map.mp hp
    exact hps q hq

/-! ## Values

The types that come up are numbers, addresses of numbers, and `void` for a call without a result. -/

theorem lands_load (h : IsNumber v.ty ∨ v.ty = .void ∨ v.ty = .ptr .i32) :
    Lands true true (load v) fun v => IsNumber v.ty ∨ v.ty = .void := by
  unfold load
  rcases h with (h | h) | h | h <;> rw [h]
  · exact .pure (.inl (.inl h))
  · exact .pure (.inl (.inr h))
  · exact .pure (.inr h)
  · exact (lands_emit _).mono fun _ hv => .inl (.inr hv)

/-- A number can be converted to any type of numbers; a missing value is reported. -/
theorem lands_coerce (n : Node) (hv : IsNumber v.ty ∨ v.ty = .void) (hwant : IsNumber want) :
    Lands true true (coerce n v want) fun v => v.ty = want := by
  unfold coerce
  rcases hv with (hv | hv) | hv <;> rcases hwant with rfl | rfl <;> rw [hv]
  · exact .pure hv
  · exact lands_emit _
  · exact lands_emit _
  · exact .pure hv
  · exact .rejectAt n rfl
  · exact .rejectAt n rfl

theorem State.Plain.slot {s : State} (hs : s.Plain) {x : String} {slot : Value}
    {owner : Option String} (h : s.symbol? x = some (.var slot owner)) : slot.ty = .ptr .i32 := by
  obtain ⟨before, after, heq, -⟩ := List.lookup_eq_some_iff.mp h
  refine hs.slots x slot owner ?_
  rw [heq]
  exact List.mem_append_right before List.mem_cons_self

theorem State.Plain.callee (hs : s.Plain) {fn : Func} (h : s.callee? name = some fn) :
    IsResult fn.ret ∧ AreNumbers fn.params := by
  unfold State.callee? at h
  split at h
  · exact hs.funcs fn (List.mem_of_find?_eq_some h)
  · cases h

/-- A variable is the address of a number. -/
theorem lands_resolve (n : Node) (x : String) :
    Lands true true (resolve n [x]) fun v => v.ty = .ptr .i32 := by
  refine .read fun s hs _ => ?_
  cases hsymbol : s.symbol? x with
  | none => exact .rejectAt n rfl
  | some symbol =>
    cases symbol with
    | func => exact .rejectAt n rfl
    | var slot owner =>
      cases owner with
      | none => exact .pure (hs.slot hsymbol)
      | some owner => exact .ite (fun _ => .pure (hs.slot hsymbol)) fun _ => .rejectAt n rfl

/-- The value of an expression: a number or nothing, or the slot of a number. -/
def IsOperand (v : Option Value) : Prop :=
  ∃ x, v = some x ∧ (IsNumber x.ty ∨ x.ty = .void ∨ x.ty = .ptr .i32)

theorem IsOperand.of_i32 (h : v.ty = .i32) : IsOperand (some v) := ⟨v, rfl, .inl (.inr h)⟩

theorem IsOperand.of_i1 (h : v.ty = .i1) : IsOperand (some v) := ⟨v, rfl, .inl (.inl h)⟩

theorem lands_visitOperand (hwant : IsNumber want) (h : Lands true true (visit n) IsOperand) :
    Lands true true (visitOperand want (some n)) fun v => v.ty = want := by
  refine h.bind ?_
  rintro _ ⟨v, rfl, hv⟩
  exact (lands_load hv).bind fun v hv => lands_coerce n hv hwant

theorem lands_visitOperands {types : List Ty} (htypes : ∀ t ∈ types, t = .i32)
    {args : List (Option Node)} (hthere : none ∉ args)
    (h : ∀ n, some n ∈ args → Lands true true (visit n) IsOperand) :
    Lands true true (visitOperands types args) fun _ => True := by
  induction args generalizing types with
  | nil => exact .pure trivial
  | cons c args ih =>
    have hwant : IsNumber (types.head?.getD .i32) := by
      cases types with
      | nil => exact .inr rfl
      | cons t types => exact .inr (htypes t List.mem_cons_self)
    cases c with
    | none => exact absurd List.mem_cons_self hthere
    | some n =>
      refine (lands_visitOperand hwant (h n List.mem_cons_self)).bind fun v _ => ?_
      refine (ih (fun t ht => htypes t (List.mem_of_mem_tail ht))
        (fun hmem => hthere (List.mem_cons_of_mem _ hmem)) fun m hm => h m
        (List.mem_cons_of_mem _ hm)).bind fun vs _ => .pure trivial

theorem lands_shift (n : Node) (op : BinOp) {x : Value} (hx : x.ty = .i32) (amount : Option Node) :
    Lands true true (shift n op x amount) IsOperand := by
  unfold shift
  split
  · exact .ite (fun _ => (lands_emit _).bind fun v hv => .pure (.of_i32 (hv.trans hx))) fun _ =>
      .rejectAt n rfl
  · exact .rejectAt n rfl

theorem lands_assign (stamp : Stamp) (hleft : left.IsExpression)
    (hright : Lands true true (visit right) IsOperand) :
    Lands true true (visit (.binary stamp .assign (some left) (some right))) IsOperand := by
  cases hleft with
  | @name place x stars =>
    refine (lands_resolve (.leaf place (.names [x] stars)) x).bind fun slot hslot => ?_
    rw [hslot]
    refine (lands_visitOperand (.inr rfl) hright).bind fun v hv => ?_
    exact (lands_emit _).bind fun _ _ => .pure (.of_i32 hv)
  | _ => exact .rejectAt _ rfl

theorem lands_operator (stamp : Stamp) {form : BinaryForm} (hform : form.IsOperator)
    (hexpr : left.IsExpression) (hleft : Lands true true (visit left) IsOperand)
    (hright : Lands true true (visit right) IsOperand) :
    Lands true true (visit (.binary stamp form (some left) (some right))) IsOperand := by
  cases hform with
  | arithmetic op =>
    refine (lands_visitOperand (.inr rfl) hleft).bind fun x hx => ?_
    refine (lands_visitOperand (.inr rfl) hright).bind fun y hy => ?_
    exact (lands_emit _).bind fun v hv => .pure (.of_i32 (hv.trans hx))
  | bitwise op =>
    refine (lands_visitOperand (.inr rfl) hleft).bind fun x hx => ?_
    have hplain (op : BinOp) : Lands true true
        (do return some (← emit (.binary op x (← visitOperand .i32 (some right))))) IsOperand := by
      refine (lands_visitOperand (.inr rfl) hright).bind fun y _ => ?_
      exact (lands_emit _).bind fun v hv => .pure (.of_i32 (hv.trans hx))
    cases op with
    | and => exact hplain .and
    | or => exact hplain .or
    | xor => exact hplain .xor
    | shl => exact lands_shift _ .shl hx (some right)
    | shr => exact lands_shift _ .ashr hx (some right)
  | comparison op =>
    refine (lands_visitOperand (.inr rfl) hleft).bind fun x _ => ?_
    refine (lands_visitOperand (.inr rfl) hright).bind fun y _ => ?_
    exact (lands_emit _).bind fun v hv => .pure (.of_i1 hv)
  | boolean op =>
    refine (lands_visitOperand (.inl rfl) hleft).bind fun x hx => ?_
    refine (lands_visitOperand (.inl rfl) hright).bind fun y _ => ?_
    exact (lands_emit _).bind fun v hv => .pure (.of_i1 (hv.trans hx))
  | assign => exact lands_assign stamp hexpr hright

/-- An expression is a number, or the missing result of a call. -/
theorem lands_expression (h : n.IsExpression) : Lands true true (visit n) IsOperand := by
  induction h with
  | int value => exact .pure (.of_i32 rfl)
  | str contents => exact .rejectAt _ rfl
  | @name stamp x stars =>
    exact (lands_resolve (.leaf stamp (.names [x] stars)) x).bind fun slot hslot => .pure
      ⟨slot, rfl, .inr (.inr hslot)⟩
  | call callee hthere hargs ih =>
    refine .read fun s hs _ => ?_
    cases hcallee : s.callee? callee with
    | none => exact .rejectAt _ rfl
    | some fn =>
      obtain ⟨hret, hparams⟩ := hs.callee hcallee
      have htypes : ∀ t ∈ fn.params.map (·.ty), t = .i32 := List.forall_mem_map.mpr hparams
      refine (lands_visitOperands htypes hthere ih).bind fun values _ => ?_
      refine (lands_emit _).bind fun v hv => .pure ⟨v, rfl, ?_⟩
      rcases hret with hret | hret
      · exact .inr (.inl (hv.trans hret))
      · exact .inl (.inr (hv.trans hret))
  | operator hform hleft hright ihl ihr => exact lands_operator _ hform hleft ihl ihr

/-! ## Statements

A body is under construction from its first to its last statement. -/

theorem lands_inFunction : Lands p p inFunction fun c => c = p :=
  .read fun _ _ hframe => .pure hframe

theorem lands_visitStatements {items : List (Option Node)} (hthere : none ∉ items)
    (h : ∀ n, some n ∈ items → Lands true true (visit n) fun _ => True) :
    Lands true true (visitStatements items) fun _ => True := by
  induction items with
  | nil => exact .pure trivial
  | cons c items ih =>
    refine lands_isOpen.bind fun _ _ => .ite (fun _ => ?_) fun _ => lands_warn _ _
    cases c with
    | none => exact absurd List.mem_cons_self hthere
    | some n =>
      refine Lands.bind (P := fun _ => True)
        ((h n List.mem_cons_self).bind fun _ _ => .pure trivial) fun _ _ => ?_
      exact ih (fun hmem => hthere (List.mem_cons_of_mem _ hmem)) fun m hm => h m
        (List.mem_cons_of_mem _ hm)

/-- Go on after a body: it ends with a branch unless it has ended. -/
theorem lands_leaveBody (term : Term) {x : LowerM α} (hx : Lands true true x P) :
    Lands true true (do
      if ← isOpen then close term
      x) P := by
  refine lands_isOpen.bind fun _ _ => .ite (fun _ => ?_) fun _ => hx
  exact (lands_close _).bind fun _ _ => hx

/-- By induction on the form: the parts of a statement land, and so do the steps between them. -/
theorem lands_statement (h : n.IsStatement) : Lands true true (visit n) fun _ => True := by
  induction h with
  | expression h => exact (lands_expression h).mono fun _ _ => trivial
  | declaration h =>
    obtain ⟨tag, isConst, x, stars⟩ := h
    exact (lands_declareVariable (.mk tag isConst x stars)).bind fun _ _ => .pure trivial
  | @ret stamp value hvalue =>
    refine lands_getFrame.bind fun frame hret => ?_
    cases value with
    | none =>
      refine .ite (fun _ => .check rfl fun _ => ?_) fun hnone => absurd rfl hnone
      exact (lands_close _).bind fun _ _ => .pure trivial
    | some e =>
      refine .skip nofun (.check rfl fun hvoid => ?_)
      have hwant : IsNumber frame.ret := .inr (eq_i32_of_not_void hret hvoid)
      refine (lands_visitOperand hwant (lands_expression (hvalue e rfl))).bind fun v _ => ?_
      exact (lands_close _).bind fun _ _ => .pure trivial
  | block hthere hitems ih =>
    refine lands_inFunction.bind ?_
    rintro _ rfl
    exact (lands_visitStatements hthere ih).bind fun _ _ => .pure trivial
  | ifThen hcond hbody ih =>
    refine (lands_newBlock _).bind fun thenBlock _ => (lands_newBlock _).bind fun endBlock _ => ?_
    refine (lands_visitOperand (.inl rfl) (lands_expression hcond)).bind fun c _ => ?_
    refine (lands_close _).bind fun _ _ => (lands_moveTo _).bind fun _ _ => ?_
    refine Lands.bind (P := fun _ => True) (ih.bind fun _ _ => .pure trivial) fun _ _ => ?_
    exact lands_leaveBody _ ((lands_moveTo _).bind fun _ _ => .pure trivial)
  | loop hcond hbody ih =>
    refine (lands_newBlock _).bind fun condBlock _ => (lands_newBlock _).bind fun bodyBlock _ => ?_
    refine (lands_newBlock _).bind fun endBlock _ => (lands_close _).bind fun _ _ =>
      (lands_moveTo _).bind fun _ _ => ?_
    refine (lands_visitOperand (.inl rfl) (lands_expression hcond)).bind fun c _ => ?_
    refine (lands_close _).bind fun _ _ => (lands_moveTo _).bind fun _ _ => ?_
    refine Lands.bind (P := fun _ => True) (ih.bind fun _ _ => .pure trivial) fun _ _ => ?_
    exact lands_leaveBody _ ((lands_moveTo _).bind fun _ _ => .pure trivial)
  | ifThenElse hcond hthen helse iht ihe =>
    refine (lands_newBlock _).bind fun thenBlock _ => (lands_newBlock _).bind fun elseBlock _ => ?_
    refine (lands_visitOperand (.inl rfl) (lands_expression hcond)).bind fun c _ => ?_
    refine (lands_close _).bind fun _ _ => (lands_moveTo _).bind fun _ _ => ?_
    refine Lands.bind (P := fun _ => True) (iht.bind fun _ _ => .pure trivial) fun _ _ => ?_
    refine lands_isOpen.bind fun _ _ => .check rfl fun _ => (lands_moveTo _).bind fun _ _ => ?_
    refine Lands.bind (P := fun _ => True) (ihe.bind fun _ _ => .pure trivial) fun _ _ => ?_
    refine lands_isOpen.bind fun _ _ => .check rfl fun _ => ?_
    exact (lands_moveTo _).bind fun _ _ => .pure trivial

/-! ## Members of a program -/

theorem lands_storeParams (func : String) (index : Nat) (h : AreNumbers params) :
    Lands true true (storeParams func index params) fun _ => True := by
  induction params generalizing index with
  | nil => exact .pure trivial
  | cons p params ih =>
    obtain ⟨hp, hparams⟩ := List.forall_mem_cons.mp h
    unfold storeParams
    rw [hp]
    refine (lands_newSlot _ _).bind fun slot hslot => (lands_emit _).bind fun _ _ => ?_
    exact (lands_bindVar hslot).bind fun _ _ => ih (index + 1) hparams

theorem lands_openBody (name : String) (h : AreNumbers params) :
    Lands false true (openBody name params) fun _ => True := by
  refine .read fun s hs _ => ?_
  cases hfunc : s.module.func? name with
  | none => exact .faulty .noFunction
  | some fn =>
    obtain ⟨hret, hnumbers⟩ := hs.funcs fn (List.mem_of_find?_eq_some hfunc)
    refine Lands.bind (q := true) (P := fun _ => True)
      (.modify fun s hs _ => ⟨?_, rfl⟩) fun _ _ => ?_
    · exact ⟨hs.slots, hs.funcs, fun f hf => Option.some.inj hf ▸ hret, hs.reports⟩
    refine (Lands.mapM (P := fun p : IR.Param => p.ty = .i32) fun p hp => ?_).bind
      fun renamed hrenamed => ?_
    · exact (lands_freshName _).bind fun _ _ => .pure (hnumbers p hp)
    refine Lands.bind (q := true) (P := fun _ => True)
      (.modify fun s hs hframe => ⟨?_, hframe⟩) fun _ _ => ?_
    · exact hs.modifyFunc name (fun _ => rfl) fun _ _ => hrenamed
    refine (lands_newBlock "entry").bind fun entry _ => (lands_moveTo _).bind fun _ _ => ?_
    exact lands_storeParams name 0 h

theorem lands_deliver (n : Node) : Lands true true (deliver n) fun _ => True := by
  refine lands_getFrame.bind fun frame _ => ?_
  cases IR.Flow.defect? frame.blocks with
  | some defect => exact .rejectAt n rfl
  | none => exact .modify fun s hs hframe => ⟨hs.modifyFunc _ (fun _ => rfl) fun _ h => h, hframe⟩

theorem lands_closeBody (n : Node) : Lands true true (closeBody n) fun _ => True := by
  refine lands_getFrame.bind fun frame _ => .ite (fun _ => ?_) fun _ => lands_deliver n
  refine .ite (fun _ => (lands_close _).bind fun _ _ => lands_deliver n) fun _ => ?_
  exact Lands.bind (q := true) (P := fun _ => True) (.rejectAt n rfl) fun _ _ => lands_deliver n

/-- Outside functions a definition, a prototype or a variable lands outside functions again. -/
theorem lands_member (h : n.IsMember) : Lands false false (visitItem n) fun _ => True := by
  cases h with
  | declaration h =>
    refine Lands.bind (P := fun _ => True) ?_ fun _ _ => .pure trivial
    obtain ⟨tag, isConst, hx, stars⟩ := h
    exact (lands_declareVariable (.mk tag isConst hx stars)).bind fun _ _ => .pure trivial
  | assign => exact .rejectAt _ rfl
  | @prototype stamp type signature h =>
    refine Lands.bind (P := fun _ => True) ?_ fun _ _ => .pure trivial
    have hsignature := h
    obtain ⟨tag, isConst, name, hparams⟩ := h
    refine lands_inFunction.bind ?_
    rintro _ rfl
    exact (lands_declareFunction hsignature rfl _ false).bind fun _ _ => .pure trivial
  | @definition stamp place type signature body h hbody =>
    refine Lands.bind (P := fun _ => True) ?_ fun _ _ => .pure trivial
    have hsignature := h
    obtain ⟨tag, isConst, name, hparams⟩ := h
    refine lands_inFunction.bind ?_
    rintro _ rfl
    refine (lands_insideFunction name ?_).bind fun _ _ => .pure trivial
    refine (lands_declareFunction hsignature rfl _ true).bind fun params hparams => ?_
    refine (lands_openBody name hparams).bind fun _ _ => ?_
    refine (lands_visitStatements hbody.1 fun n hn => lands_statement (hbody.2 n hn)).bind
      fun _ _ => ?_
    exact lands_closeBody _

end Lands

/-- Lowering members of the right form leaves reports only. -/
theorem plain_of_visitTopLevel {items : List (Option Node)} {s s' : State} {u : Unit}
    (hitems : Node.AllItems Node.IsMember items) (hs : s.Steady) (hplain : s.Plain)
    (h : Gives (visitTopLevel items) s u s') : s'.Plain := by
  induction items generalizing s with
  | nil =>
    obtain rfl := gives_visitTopLevel_nil.mp h
    exact hplain
  | cons c items ih =>
    obtain ⟨n, rfl, hn⟩ := hitems.head
    rw [visitTopLevel_some, gives_bind] at h
    obtain ⟨_, t, hmember, hmore⟩ := h
    have hsteady := ((gives_member hs.frame hs.scope hmember).steady hs).1
    refine ih hitems.tail hsteady ?_ hmore
    have hlands := lands_member hn s hplain (by rw [hs.frame]; rfl)
    rcases gives_recording.mp hmember with hgives | ⟨r, t', hstops, rfl⟩
    · rw [show (visitItem n).run.run s = _ from hgives] at hlands
      exact hlands.1
    · rw [show (visitItem n).run.run s = _ from hstops] at hlands
      obtain ⟨hplain', hreport⟩ := hlands
      refine ⟨hplain'.slots, hplain'.funcs, hplain'.ret, fun r' hr' => ?_⟩
      rcases List.mem_append.mp hr' with hr' | hr'
      · exact hplain'.reports r' hr'
      · exact List.mem_singleton.mp hr' ▸ hreport

end CSubset.Lowering
