import CSubset.Proofs.Typing.Basic

/-!
# Types while a body is built

The code of a body is well typed at each moment, and so is what lowering an expression gives
(`State.Typed`). The table of names takes part in it: a variable that can be used in the body is a
global variable or a slot that the body has made. One rule for each primitive change of a frame, one
lemma for each form of node. Main statement: `typed_visit`.

The module `m` is the one in which the code will stand. All that is needed of it is that it has the
global variables and the functions that the body can name.
-/

namespace CSubset.Lowering

open IR (Ty Value Op BinOp Term Instr Block Func Param Module Widens instrAt?)

/-- The code of a body under construction, under these parameters. -/
def Frame.code (f : Frame) (ps : List Param) : Func := ⟨f.func, f.ret, ps, f.blocks⟩

/-- The body under construction, which was `f` and is `g` now, is well typed in module `m`. -/
structure State.Typed (s : State) (m : Module) (ps : List Param) (f g : Frame) : Prop where
  frame : s.frame = some g
  widens : Widens m (f.code ps) m (g.code ps)
  numbered : g.Numbered
  code : (g.code ps).WellTyped m
  slots : ∀ x slot owner, (x, .var slot owner) ∈ s.symbols → owner = none ∨ owner = some g.func →
    slot.IsSlot m (g.code ps) .i32
  callees : ∀ name c, s.module.func? name = some c → (∀ p ∈ c.params, p.ty = .i32) ∧
    (c.ret = .void ∨ c.ret = .i32) ∧ ∃ c', m.func? name = some c' ∧ c'.ret = c.ret ∧
    c'.params.map (·.ty) = c.params.map (·.ty)

section

variable {m : Module} {ps : List Param} {s s' : State} {f g h : Frame} {i : Nat} {b : Block}
  {v x y : Value} {ty want : Ty}

theorem Frame.Extends.widens (hfg : f.Extends g) : Widens m (f.code ps) m (g.code ps) :=
  ⟨fun _ h => h, fun _ c hc => ⟨c, hc, rfl, rfl⟩, hfg.func, hfg.ret, rfl, hfg.grow⟩

namespace State.Typed

variable {t : Term} (hs : s.Typed m ps f g)

include hs

theorem refl : s.Typed m ps g g := { hs with widens := .refl _ _ }

theorem trans (hs' : s'.Typed m ps g h) : s'.Typed m ps f h :=
  { hs' with widens := hs.widens.trans hs'.widens }

/-! ## Changes of the frame

Typing is kept when the code grows: what belonged to it before does so still. -/

/-- A change that extends the frame by well-typed code. -/
theorem extend (hgh : g.Extends h)
    (hinstrs : ∀ j k x, instrAt? h.blocks j k = some x → instrAt? g.blocks j k = some x ∨
      x.op.WellTyped m (h.code ps))
    (hends : ∀ (j : Nat) (c : Block) (t : Term), h.blocks[j]? = some c → c.term = some t →
      g.blocks[j]? = some c ∨ t.WellTyped m (h.code ps)) : (s.withFrame h).Typed m ps f h where
  frame := rfl
  widens := hs.widens.trans hgh.widens
  numbered := hgh.numbered hs.numbered
  code := hs.code.widen hgh.widens (hgh.numbered hs.numbered).unique hinstrs hends
  slots x slot owner hx howner := (hs.slots x slot owner hx (hgh.func ▸ howner)).widen hgh.widens
  callees := hs.callees

theorem push (hb : g.Filling i b) {op : Op} (hop : op.WellTyped m (g.code ps)) :
    (s.withFrame (g.push i b op)).Typed m ps f (g.push i b op) := by
  have hextends := Frame.extends_push hb op
  refine hs.extend hextends ?_ fun j c t hc ht => .inl (Frame.closed_push hb hc ht)
  intro j k x hx
  rcases (Frame.instrAt?_push hb).mp hx with hold | ⟨-, -, rfl⟩
  · exact .inl hold
  · exact .inr (hop.widen hextends.widens)

theorem finish (hb : g.Filling i b) (ht : t.WellTyped m (g.code ps)) :
    (s.withFrame (g.finish i b t)).Typed m ps f (g.finish i b t) := by
  have hextends := Frame.extends_finish hb t
  refine hs.extend hextends (fun j k x hx => .inl (Frame.instrAt?_finish hb ▸ hx)) ?_
  intro j c t' hc ht'
  rcases Frame.closed_finish hb hc ht' with ⟨-, -, rfl⟩ | hold
  · exact .inr (ht.widen hextends.widens)
  · exact .inl hold

theorem endWith (ht : g.isOpen = true → t.WellTyped m (g.code ps)) :
    (s.withFrame (g.endWith t)).Typed m ps f (g.endWith t) := by
  by_cases hopen : g.isOpen = true
  · obtain ⟨i, b, hb⟩ := Frame.isOpen_iff.mp hopen
    rw [Frame.endWith_of_filling hb]
    exact hs.finish hb (ht hopen)
  · rw [Frame.endWith_of_not_isOpen hopen, State.withFrame_self hs.frame]
    exact hs

theorem addBlock (base : String) :
    (s.withFrame (g.addBlock base)).Typed m ps f (g.addBlock base) :=
  hs.extend (Frame.extends_addBlock g base) (fun _ _ _ hx => .inl (Frame.instrAt?_addBlock ▸ hx))
    fun _ _ _ hc ht => .inl (Frame.closed_addBlock hc ht)

theorem useName (base : String) :
    (s.withFrame (g.useName base)).Typed m ps f (g.useName base) :=
  hs.extend (Frame.extends_useName g base) (fun _ _ _ hx => .inl hx) fun _ _ _ hc _ => .inl hc

/-- The code does not depend on which block is being filled. -/
theorem moveTo (c : Option Nat) :
    (s.withFrame (g.moveTo c)).Typed m ps f (g.moveTo c) :=
  { hs with
    frame := rfl
    numbered := hs.numbered.congr rfl fun _ _ => rfl }

/-- A new variable of the function, with a slot that the body has made. -/
theorem bind (x owner : String) {slot : Value} (hslot : slot.IsSlot m (g.code ps) .i32) :
    State.Typed { s with symbols := (x, .var slot (some owner)) :: s.symbols } m ps f g :=
  { hs with
    slots y slot' owner' hy howner := by
      rcases List.mem_cons.mp hy with heq | hy
      · cases heq
        exact hslot
      · exact hs.slots y slot' owner' hy howner }

theorem warned (ws : List Warning) : (s.warned ws).Typed m ps f g :=
  ⟨hs.frame, hs.widens, hs.numbered, hs.code, hs.slots, hs.callees⟩

end State.Typed

theorem Frame.Filling.instrAt?_push (hb : f.Filling i b) (op : Op) :
    instrAt? (f.push i b op).blocks i b.instrs.length = some ⟨f.count, op⟩ :=
  (Frame.instrAt?_push hb).mpr (.inr ⟨rfl, rfl, rfl⟩)

/-! ## Values -/

/-- A value of this type that the function can use. -/
structure Fits (m : Module) (fn : Func) (ty : Ty) (v : Value) : Prop where
  belongs : v.Belongs m fn
  ty : v.ty = ty

/-- What an expression gives: a slot, or a value that is no address. -/
def Readable (m : Module) (fn : Func) (v : Value) : Prop :=
  v.IsSlot m fn .i32 ∨ (v.Belongs m fn ∧ v.ty.pointee? = none)

variable {fn fn' : Func} {m' : Module}

theorem Fits.widen (hv : Fits m fn ty v) (h : Widens m fn m' fn') : Fits m' fn' ty v :=
  ⟨hv.belongs.widen h, hv.ty⟩

/-- A value of a type is an operand, unless the type is `void`. -/
theorem Fits.operand (hv : Fits m fn ty v) (hty : ty ≠ .void) : v.Belongs m fn ∧ v.ty ≠ .void :=
  ⟨hv.belongs, hv.ty ▸ hty⟩

theorem State.Typed.emit (hs : s.Typed m ps f g) {op : Op} (hop : op.WellTyped m (g.code ps))
    (hv : Gives (Lowering.emit op) s v s') :
    ∃ h, s'.Typed m ps g h ∧ Fits m (h.code ps) op.ty v := by
  obtain ⟨g', i, b, hg', hb, rfl, rfl⟩ := gives_emit.mp hv
  obtain rfl := Option.mem_unique hs.frame hg'
  have hnew : instrAt? ((g.push i b op).code ps).blocks i b.instrs.length = some ⟨g.count, op⟩ :=
    hb.instrAt?_push op
  exact ⟨_, hs.refl.push hb hop, .result hnew, rfl⟩

/-- What is loaded has the type that its address points to. -/
theorem State.Typed.load (hs : s.Typed m ps f g) {u : Value} (hu : Readable m (g.code ps) u)
    (hx : Gives (Lowering.load u) s x s') : ∃ h, s'.Typed m ps g h ∧ x.Belongs m (h.code ps) := by
  rcases gives_load.mp hx with ⟨elem, helem, hx⟩ | ⟨hnone, rfl, rfl⟩
  · rcases hu with hslot | ⟨-, hnone⟩
    · obtain rfl : Ty.i32 = elem := Ty.ptr.inj (hslot.ty.symm.trans helem)
      have hload : (Op.load .i32 u).WellTyped m (g.code ps) := .single hslot rfl hslot.operand
      obtain ⟨h, hs', hfits⟩ := hs.emit hload hx
      exact ⟨h, hs', hfits.belongs⟩
    · simp [helem, Ty.pointee?] at hnone
  · rcases hu with hslot | ⟨hbelongs, -⟩
    · simp [hslot.ty, Ty.pointee?] at hnone
    · exact ⟨g, hs.refl, hbelongs⟩

/-- After the conversion a value has the type that is wanted. -/
theorem State.Typed.coerce (hs : s.Typed m ps f g) {n : Node} (hx : x.Belongs m (g.code ps))
    (hy : Gives (Lowering.coerce n x want) s y s') :
    ∃ h, s'.Typed m ps g h ∧ Fits m (h.code ps) want y := by
  rcases gives_coerce.mp hy with ⟨hty, rfl, rfl⟩ | ⟨hty, rfl, hemit⟩ | ⟨hty, rfl, hemit⟩
  · exact ⟨g, hs.refl, hx, hty⟩
  · have hzext : (Op.zext x .i32).WellTyped m (g.code ps) :=
      .single ⟨hty, rfl⟩ rfl ⟨hx, by simp [hty]⟩
    exact hs.emit hzext hemit
  · have hicmp : (Op.icmp .ne x (.const 0)).WellTyped m (g.code ps) :=
      .pair ⟨hty, rfl⟩ rfl ⟨hx, by simp [hty]⟩ ⟨.const 0, by simp [Value.ty]⟩
    exact hs.emit hicmp hemit

/-! ## Operands -/

/-- What the proof about a node needs to know of a child. -/
def LowersTyped (m : Module) (ps : List Param) (n : Option Node) : Prop :=
  ∀ t, n = some t → ∀ s v s' f g, Gives (visit t) s v s' → s.Typed m ps f g →
    ∃ h, s'.Typed m ps g h ∧ ∀ u, v = some u → Readable m (h.code ps) u

theorem LowersTyped.operand {n : Option Node} (hn : LowersTyped m ps n) (hs : s.Typed m ps f g)
    (hy : Gives (visitOperand want n) s y s') :
    ∃ h, s'.Typed m ps g h ∧ Fits m (h.code ps) want y := by
  obtain ⟨t, u, s₁, x, s₂, rfl, hu, hx, hy⟩ := gives_visitOperand.mp hy
  obtain ⟨g₁, hs₁, hread⟩ := hn t rfl s _ s₁ f g hu hs
  obtain ⟨g₂, hs₂, hbelongs⟩ := hs₁.load (hread u rfl) hx
  obtain ⟨g₃, hs₃, hfits⟩ := hs₂.coerce hbelongs hy
  exact ⟨g₃, (hs₁.trans hs₂).trans hs₃, hfits⟩

/-- The arguments of a call have the types of the parameters, which are numbers. -/
theorem typed_operands {ns : List (Option Node)} (hns : ∀ n ∈ ns, LowersTyped m ps n)
    {types : List Ty} (htypes : ∀ ty ∈ types, ty = .i32) {ys : List Value} (hs : s.Typed m ps f g)
    (hys : Gives (visitOperands types ns) s ys s') :
    ∃ h, s'.Typed m ps g h ∧ (∀ y ∈ ys, Fits m (h.code ps) .i32 y) ∧
      ∀ (j : Nat) (y : Value), ys[j]? = some y → y.ty = types[j]?.getD .i32 := by
  induction ns generalizing types s f g ys with
  | nil =>
    obtain ⟨rfl, rfl⟩ := gives_visitOperands_nil.mp hys
    exact ⟨g, hs.refl, by simp, by simp⟩
  | cons n ns ih =>
    obtain ⟨y, s₁, rest, hy, hrest, rfl⟩ := gives_visitOperands_cons.mp hys
    obtain ⟨g₁, hs₁, hfits⟩ := (hns n List.mem_cons_self).operand hs hy
    have htail : ∀ ty ∈ types.tail, ty = .i32 := fun ty hty => htypes ty (List.mem_of_mem_tail hty)
    obtain ⟨g₂, hs₂, hall, hindex⟩ :=
      ih (fun n hn => hns n (List.mem_cons_of_mem _ hn)) htail hs₁ hrest
    -- an argument without a parameter is converted to a number too
    have hhead : types.head?.getD .i32 = .i32 := by
      cases types with
      | nil => rfl
      | cons ty types => exact htypes ty List.mem_cons_self
    refine ⟨g₂, hs₁.trans hs₂, ?_, ?_⟩
    · intro z hz
      rcases List.mem_cons.mp hz with rfl | hz
      · exact hhead ▸ hfits.widen hs₂.widens
      · exact hall z hz
    · intro j z hz
      cases j with
      | zero =>
        obtain rfl : y = z := by simpa using hz
        rw [hfits.ty, List.head?_eq_getElem?]
      | succ j =>
        rw [hindex j z (by simpa using hz), List.getElem?_tail]

/-! ## Expressions

A value that is lowered belongs to the code behind it, so it may be an operand of the next
instruction. -/

section Forms

variable {stamp : Stamp} {v : Option Value} {cond left right body : Option Node} {form : BinaryForm}
  {op : Value → Value → Op} {ty : Ty} {u : Unit} {x : Value}

/-- An operator on two operands of its type is a typed instruction. -/
theorem instruction?_wellTyped {y : Value}
    (hform : form.instruction? = some (ty, op)) (hx : Fits m fn ty x) (hy : Fits m fn ty y) :
    (op x y).WellTyped m fn ∧ (op x y).ty.pointee? = none := by
  obtain ⟨hx, hxty⟩ := hx
  obtain ⟨hy, hyty⟩ := hy
  have hpair : ∀ {op : Op}, ty ≠ .void → op.operands = [x, y] → op.Accepts m fn →
      op.WellTyped m fn :=
    fun hne hop haccepts => .pair haccepts hop ⟨hx, hxty ▸ hne⟩ ⟨hy, hyty ▸ hne⟩
  have hleft : ∀ {op : BinOp}, (Op.binary op x y).ty = ty := hxty
  unfold BinaryForm.instruction? at hform
  split at hform <;> cases hform
  next op => exact ⟨hpair nofun rfl (by cases op <;> exact ⟨hxty, hyty⟩), by rw [hleft]; rfl⟩
  next => exact ⟨hpair nofun rfl ⟨hxty.trans hyty.symm, .inr hxty⟩, by rw [hleft]; rfl⟩
  next => exact ⟨hpair nofun rfl ⟨hxty.trans hyty.symm, .inr hxty⟩, by rw [hleft]; rfl⟩
  next => exact ⟨hpair nofun rfl ⟨hxty, hyty⟩, by rw [hleft]; rfl⟩
  next => exact ⟨hpair nofun rfl ⟨hxty, hyty⟩, rfl⟩
  next op =>
    exact ⟨hpair nofun rfl
      (by cases op <;> exact ⟨hxty.trans hyty.symm, .inl hxty⟩), by rw [hleft]; rfl⟩

theorem State.Resolves.isSlot (hs : s.Typed m ps f g) {x : String} {slot : Value}
    (hx : s.Resolves x slot) : slot.IsSlot m (g.code ps) .i32 := by
  obtain ⟨owner, hsym, howner⟩ := hx
  refine hs.slots x slot owner (State.mem_symbols hsym) ?_
  cases owner with
  | none => exact .inl rfl
  | some func =>
    have hfunc := howner func rfl
    rw [hs.frame] at hfunc
    exact .inr hfunc.symm

theorem typed_operator (hform : form.instruction? = some (ty, op)) (hleft : LowersTyped m ps left)
    (hright : LowersTyped m ps right) (hv : Gives (visit (.binary stamp form left right)) s v s')
    (hs : s.Typed m ps f g) :
    ∃ h, s'.Typed m ps g h ∧ ∀ u, v = some u → Readable m (h.code ps) u := by
  obtain ⟨x, s₁, y, s₂, w, hx, hy, hw, rfl⟩ := (gives_visit_operator hform).mp hv
  obtain ⟨g₁, hs₁, hxfits⟩ := hleft.operand hs hx
  obtain ⟨g₂, hs₂, hyfits⟩ := hright.operand hs₁ hy
  obtain ⟨hop, hty⟩ := instruction?_wellTyped hform (hxfits.widen hs₂.widens) hyfits
  obtain ⟨g₃, hs₃, hfits⟩ := hs₂.emit hop hw
  refine ⟨g₃, (hs₁.trans hs₂).trans hs₃, ?_⟩
  rintro _ ⟨⟩
  exact .inr ⟨hfits.belongs, hfits.ty ▸ hty⟩

theorem typed_shift {op : BinOp} (hform : form.shift? = some op) (hleft : LowersTyped m ps left)
    (hv : Gives (visit (.binary stamp form left right)) s v s') (hs : s.Typed m ps f g) :
    ∃ h, s'.Typed m ps g h ∧ ∀ u, v = some u → Readable m (h.code ps) u := by
  obtain ⟨x, s₁, place, k, w, hx, -, hk, hw, rfl⟩ := (gives_visit_shift hform).mp hv
  obtain ⟨g₁, hs₁, hfits⟩ := hleft.operand hs hx
  have hop : (Op.binary op x (.const k)).WellTyped m (g₁.code ps) := by
    refine .pair ?_ rfl (hfits.operand nofun) ⟨.const k, nofun⟩
    unfold BinaryForm.shift? at hform
    split at hform <;> cases hform <;> exact ⟨hfits.ty, k, rfl, hk⟩
  obtain ⟨g₂, hs₂, hwfits⟩ := hs₁.emit hop hw
  refine ⟨g₂, hs₁.trans hs₂, ?_⟩
  rintro _ ⟨⟩
  have hty : (Op.binary op x (.const k)).ty = .i32 := hfits.ty
  exact .inr ⟨hwfits.belongs, by rw [hwfits.ty, hty]; rfl⟩

theorem typed_assign (hright : LowersTyped m ps right)
    (hv : Gives (visit (.binary stamp .assign left right)) s v s') (hs : s.Typed m ps f g) :
    ∃ h, s'.Typed m ps g h ∧ ∀ u, v = some u → Readable m (h.code ps) u := by
  obtain ⟨place, x, stars, slot, y, s₁, w, -, hx, hy, hw, rfl⟩ := gives_visit_assign.mp hv
  have hslot := hx.isSlot hs
  obtain ⟨g₁, hs₁, hfits⟩ := hright.operand hs hy
  have hty : y.ty = .i32 := by rw [hfits.ty, hslot.ty]; rfl
  have hslot₁ := hslot.widen hs₁.widens
  have hop : (Op.store y slot).WellTyped m (g₁.code ps) := by
    refine .pair ?_ rfl ⟨hfits.belongs, by simp [hty]⟩ hslot₁.operand
    show slot.IsSlot m (g₁.code ps) y.ty
    rw [hty]
    exact hslot₁
  obtain ⟨g₂, hs₂, -⟩ := hs₁.emit hop hw
  refine ⟨g₂, hs₁.trans hs₂, ?_⟩
  rintro _ ⟨⟩
  exact .inr ⟨hfits.belongs.widen hs₂.widens, by rw [hty]; rfl⟩

/-- The arguments have the types of the parameters, as far as there are parameters. -/
theorem typed_call {callee : String} {args : Option Node}
    (hargs : ∀ l form items, args = some (.seq l form items) → ∀ n ∈ items, LowersTyped m ps n)
    (hv : Gives (visit (.unary stamp (.call callee) args)) s v s') (hs : s.Typed m ps f g) :
    ∃ h, s'.Typed m ps g h ∧ ∀ u, v = some u → Readable m (h.code ps) u := by
  obtain ⟨c, values, s₁, w, hcallee, hvalues, hw, rfl⟩ := gives_visit_call.mp hv
  have hc : s.module.func? callee = some c := by
    unfold State.callee? at hcallee
    split at hcallee
    · exact hcallee
    · cases hcallee
  obtain ⟨hparams, hret, c', hc', hret', htypes⟩ := hs.callees callee c hc
  have hnumbers : ∀ ty ∈ c.params.map (·.ty), ty = .i32 := by
    intro ty hty
    obtain ⟨p, hp, rfl⟩ := List.mem_map.mp hty
    exact hparams p hp
  obtain ⟨g₁, hs₁, hall, hindex⟩ : ∃ h, s₁.Typed m ps g h ∧
      (∀ y ∈ values, Fits m (h.code ps) .i32 y) ∧ ∀ (j : Nat) (y : Value), values[j]? = some y →
      y.ty = (c.params.map (·.ty))[j]?.getD .i32 := by
    rcases gives_visitArgs.mp hvalues with ⟨place, items, rfl, hitems⟩ | ⟨-, rfl, rfl⟩
    · exact typed_operands (hargs _ _ _ rfl) hnumbers hs hitems
    · exact ⟨g, hs.refl, by simp, by simp⟩
  have hop : (Op.call c.name c.ret values).WellTyped m (g₁.code ps) := by
    refine ⟨⟨c', Module.func?_name hc ▸ hc', hret', ?_⟩, fun y hy => (hall y hy).operand nofun⟩
    rw [htypes]
    exact hindex
  obtain ⟨g₂, hs₂, hfits⟩ := hs₁.emit hop hw
  refine ⟨g₂, hs₁.trans hs₂, ?_⟩
  rintro _ ⟨⟩
  refine .inr ⟨hfits.belongs, ?_⟩
  rw [hfits.ty]
  show c.ret.pointee? = none
  rcases hret with hret | hret <;> rw [hret] <;> rfl

/-! ## Statements -/

theorem typed_declares {x : Variable} (hx : s.Declares x s') (hs : s.Typed m ps f g) :
    ∃ h, s'.Typed m ps g h := by
  obtain ⟨i, b, hb, rfl⟩ := (State.declares_iff_of_frame hs.frame).mp hx
  have hb' := hb.useName x.name
  have hop : (Op.alloca (g.freshName x.name) .i32 (sizeOfTag x.tag)).WellTyped m
      ((g.useName x.name).code ps) :=
    ⟨nofun, by simp [Op.operands]⟩
  have hslot := (hs.refl.useName x.name).push hb' hop
  exact ⟨_, (hslot.bind x.name g.func (.own (hb'.instrAt?_push _))).warned x.warnings⟩

theorem LowersTyped.statement {n : Option Node} (hn : LowersTyped m ps n)
    (h : Gives (visitStatement n) s u s') (hs : s.Typed m ps f g) : ∃ h, s'.Typed m ps g h := by
  rcases gives_visitStatement.mp h with ⟨-, rfl⟩ | ⟨t, v, rfl, hv⟩
  · exact ⟨g, hs.refl⟩
  · obtain ⟨h, hs', -⟩ := hn t rfl s v s' f g hv hs
    exact ⟨h, hs'⟩

theorem typed_statements {ns : List (Option Node)} (hns : ∀ n ∈ ns, LowersTyped m ps n)
    (h : Gives (visitStatements ns) s u s') (hs : s.Typed m ps f g) : ∃ h, s'.Typed m ps g h := by
  induction ns generalizing s f g with
  | nil =>
    obtain rfl := gives_visitStatements_nil.mp h
    exact ⟨g, hs.refl⟩
  | cons n ns ih =>
    rcases gives_visitStatements_cons.mp h with ⟨-, s₁, hn, hrest⟩ | ⟨-, rfl⟩
    · obtain ⟨g₁, hs₁⟩ := (hns n List.mem_cons_self).statement hn hs
      obtain ⟨g₂, hs₂⟩ := ih (fun n hn => hns n (List.mem_cons_of_mem _ hn)) hrest hs₁
      exact ⟨g₂, hs₁.trans hs₂⟩
    · exact ⟨g, hs.refl.warned _⟩

/-- The value has the type of the result, and without one there is no value. -/
theorem typed_return {value : Option Node} (hvalue : LowersTyped m ps value)
    (hv : Gives (visit (.unary stamp .ret value)) s v s') (hs : s.Typed m ps f g) :
    ∃ h, s'.Typed m ps g h := by
  cases value with
  | none =>
    obtain ⟨⟨g', hg', hret⟩, hclose, -⟩ := gives_visit_return_none.mp hv
    obtain rfl := Option.mem_unique hs.frame hg'
    obtain ⟨g', i, b, hg', hb, rfl⟩ := gives_close.mp hclose
    obtain rfl := Option.mem_unique hs.frame hg'
    exact ⟨_, hs.refl.finish hb ⟨hret, by simp [Term.operands]⟩⟩
  | some value =>
    obtain ⟨g', x, s₁, hg', hret, hx, hclose, -⟩ := gives_visit_return_some.mp hv
    obtain rfl := Option.mem_unique hs.frame hg'
    obtain ⟨g₁, hs₁, hfits⟩ := hvalue.operand hs hx
    obtain ⟨g', i, b, hg', hb, rfl⟩ := gives_close.mp hclose
    obtain rfl := Option.mem_unique hs₁.frame hg'
    have hend : (Term.ret (some x)).WellTyped m (g₁.code ps) := by
      refine ⟨hfits.ty.trans hs₁.widens.ret.symm, ?_⟩
      simpa [Term.operands] using hfits.operand hret
    exact ⟨_, hs₁.finish hb hend⟩

/-- A condition and the branch behind it, and go on with another block. -/
theorem LowersTyped.branch (hcond : LowersTyped m ps cond) {k : Frame} (hs : s.Typed m ps f g)
    (hx : Gives (visitOperand .i1 cond) s x s') (hk : s'.frame = some k) (hb : k.Filling i b)
    (next other : Nat) :
    (s'.withFrame ((k.finish i b (.condBr x next other)).moveTo (some next))).Typed m ps f
      ((k.finish i b (.condBr x next other)).moveTo (some next)) := by
  obtain ⟨k', hs', hfits⟩ := hcond.operand hs hx
  obtain rfl := Option.mem_unique hk hs'.frame
  have hend : (Term.condBr x next other).WellTyped m (k.code ps) := by
    refine ⟨hfits.ty, ?_⟩
    simpa [Term.operands] using hfits.operand nofun
  exact ((hs.trans hs').finish hb hend).moveTo (some next)

theorem wellTyped_br (target : Nat) : (Term.br target).WellTyped m fn :=
  ⟨trivial, by simp [Term.operands]⟩

theorem typed_ifThen (hcond : LowersTyped m ps cond) (hbody : LowersTyped m ps body)
    (hv : Gives (visit (.binary stamp .ifThen cond body)) s v s') (hs : s.Typed m ps f g) :
    ∃ h, s'.Typed m ps g h := by
  obtain ⟨g', x, s₁, k, i, b, s₂, h, hg', hx, hk, hb, hthen, hh, rfl, -⟩ := gives_visit_ifThen.mp hv
  obtain rfl := Option.mem_unique hs.frame hg'
  have hblocks := (hs.refl.addBlock "if.then").addBlock "if.end"
  have hbranch := hcond.branch hblocks hx hk hb g.blocks.length (g.blocks.length + 1)
  obtain ⟨h', hdone⟩ := hbody.statement hthen hbranch
  obtain rfl := Option.mem_unique hh hdone.frame
  exact ⟨_, ((hbranch.trans hdone).endWith fun _ => wellTyped_br _).moveTo _⟩

theorem typed_while (hcond : LowersTyped m ps cond) (hbody : LowersTyped m ps body)
    (hv : Gives (visit (.binary stamp .while cond body)) s v s') (hs : s.Typed m ps f g) :
    ∃ h, s'.Typed m ps g h := by
  obtain ⟨g', j, c, x, s₁, k, i, b, s₂, h, hg', hc, hx, hk, hb, hthen, hh, rfl, -⟩ :=
    gives_visit_while.mp hv
  obtain rfl := Option.mem_unique hs.frame hg'
  have hblocks := ((hs.refl.addBlock "while.cond").addBlock "while.body").addBlock "while.end"
  have hentered := (hblocks.finish hc (wellTyped_br g.blocks.length)).moveTo (some g.blocks.length)
  have hbranch := hcond.branch hentered hx hk hb (g.blocks.length + 1) (g.blocks.length + 2)
  obtain ⟨h', hdone⟩ := hbody.statement hthen hbranch
  obtain rfl := Option.mem_unique hh hdone.frame
  exact ⟨_, ((hbranch.trans hdone).endWith fun _ => wellTyped_br _).moveTo _⟩

theorem typed_ifThenElse {thenBody elseBody : Option Node} (hcond : LowersTyped m ps cond)
    (hthen : LowersTyped m ps thenBody) (helse : LowersTyped m ps elseBody)
    (hv : Gives (visit (.ternary stamp .ifThenElse cond thenBody elseBody)) s v s')
    (hs : s.Typed m ps f g) : ∃ h, s'.Typed m ps g h := by
  obtain ⟨g', x, s₁, k, i, b, s₂, h, s₃, l, hg', hx, hk, hb, hs₂, hh, -, hs₃, hl, -, rfl, -⟩ :=
    gives_visit_ifThenElse.mp hv
  obtain rfl := Option.mem_unique hs.frame hg'
  have hblocks := (hs.refl.addBlock "if.then").addBlock "if.else"
  have hbranch := hcond.branch hblocks hx hk hb g.blocks.length (g.blocks.length + 1)
  obtain ⟨h', hthenDone⟩ := hthen.statement hs₂ hbranch
  obtain rfl := Option.mem_unique hh hthenDone.frame
  have hmoved := (hbranch.trans hthenDone).moveTo (some (g.blocks.length + 1))
  obtain ⟨l', helseDone⟩ := helse.statement hs₃ hmoved
  obtain rfl := Option.mem_unique hl helseDone.frame
  exact ⟨_, (hmoved.trans helseDone).moveTo none⟩

end Forms

/-- A statement has no value. -/
theorem typed_of_statement {v : Option Value} (h : ∃ h, s'.Typed m ps g h) (hv : v = none) :
    ∃ h, s'.Typed m ps g h ∧ ∀ u, v = some u → Readable m (h.code ps) u := by
  obtain ⟨h, hs'⟩ := h
  exact ⟨h, hs', by simp [hv]⟩

/-- Lowering a tree keeps the code well typed, and gives a value that the code can use. -/
theorem typed_visit (t : Node) : LowersTyped m ps (some t) := by
  rintro _ ⟨⟩
  induction t using Tree.ind with
  | leaf l form =>
    intro s v s' f g hv hs
    rcases gives_visit_leaf.mp hv with ⟨c, -, rfl, rfl⟩ | ⟨x, stars, slot, -, hx, rfl, rfl⟩
    · refine ⟨g, hs.refl, ?_⟩
      rintro _ ⟨⟩
      exact .inr ⟨.const c, rfl⟩
    · refine ⟨g, hs.refl, ?_⟩
      rintro _ ⟨⟩
      exact .inl (hx.isSlot hs)
  | seq l form items ih =>
    intro s v s' f g hv hs
    cases form with
    | program => simp [gives_visit_program, hs.frame] at hv
    | parameters => exact absurd hv not_gives_visit_parameters
    | block =>
      obtain ⟨-, hitems, hnone⟩ := gives_visit_block.mp hv
      exact typed_of_statement (typed_statements (fun n hn t ht => ih t (ht ▸ hn)) hitems hs) hnone
  | unary l form child ih ihArgs =>
    intro s v s' f g hv hs
    cases form with
    | signature name => exact absurd hv not_gives_visit_signature
    | call callee =>
      exact typed_call (fun l form items hargs n hn t ht => ihArgs l form items hargs t
        (ht ▸ hn)) hv hs
    | ret =>
      refine typed_of_statement (typed_return ih hv hs) ?_
      cases child with
      | none => exact (gives_visit_return_none.mp hv).2.2
      | some value =>
        obtain ⟨_, _, _, -, -, -, -, hnone⟩ := gives_visit_return_some.mp hv
        exact hnone
  | binary l form left right ihl ihr =>
    intro s v s' f g hv hs
    rcases form.view with ⟨ty, op, hform⟩ | ⟨op, hform⟩ | hform | rfl | rfl | rfl | rfl | rfl
    · exact typed_operator hform ihl ihr hv hs
    · exact typed_shift hform ihl hv hs
    · exact absurd hv (not_gives_visit_unknown hform)
    · exact typed_assign ihr hv hs
    · obtain ⟨x, -, hx, hnone⟩ := gives_visit_declaration.mp hv
      exact typed_of_statement (typed_declares hx hs) hnone
    · rcases gives_visit_forward.mp hv with ⟨x, -, hx, hnone⟩ | ⟨_, _, _, _, -, hframe, -⟩
      · exact typed_of_statement (typed_declares hx hs) hnone
      · simp [hs.frame] at hframe
    · refine typed_of_statement (typed_ifThen ihl ihr hv hs) ?_
      obtain ⟨_, _, _, _, _, _, _, _, -, -, -, -, -, -, -, hnone⟩ := gives_visit_ifThen.mp hv
      exact hnone
    · refine typed_of_statement (typed_while ihl ihr hv hs) ?_
      obtain ⟨_, _, _, _, _, _, _, _, _, _, -, -, -, -, -, -, -, -, hnone⟩ :=
        gives_visit_while.mp hv
      exact hnone
  | ternary l form first second third ih₁ ih₂ ih₃ =>
    intro s v s' f g hv hs
    cases form with
    | definition => simp [gives_visit_definition, hs.frame] at hv
    | ifThenElse =>
      refine typed_of_statement (typed_ifThenElse ih₁ ih₂ ih₃ hv hs) ?_
      obtain ⟨_, _, _, _, _, _, _, _, _, _, -, -, -, -, -, -, -, -, -, -, -, hnone⟩ :=
        gives_visit_ifThenElse.mp hv
      exact hnone

/-! ## Parameters -/

/-- Each parameter is stored in a slot of its type. -/
theorem typed_storeParams {func : String} {index : Nat} {rest : List Param} {u : Unit}
    (hs : s.Typed m ps f g) (hnumbers : ∀ p ∈ rest, p.ty = .i32)
    (hrest : rest.map (·.ty) = (ps.map (·.ty)).drop index)
    (h : Gives (storeParams func index rest) s u s') : ∃ h, s'.Typed m ps g h := by
  induction rest generalizing s f g index with
  | nil =>
    obtain rfl := gives_storeParams_nil.mp h
    exact ⟨g, hs.refl⟩
  | cons p rest ih =>
    obtain ⟨g', i, b, hg', hb, hrun⟩ := gives_storeParams_cons.mp h
    obtain rfl := Option.mem_unique hs.frame hg'
    obtain ⟨x, ty⟩ := p
    obtain rfl : ty = .i32 := hnumbers _ List.mem_cons_self
    have hb' := hb.useName (x ++ ".addr")
    have halloca : (Op.alloca (g.freshName (x ++ ".addr")) .i32 4).WellTyped m
        ((g.useName (x ++ ".addr")).code ps) :=
      ⟨nofun, by simp [Op.operands]⟩
    have hmade := (hs.refl.useName (x ++ ".addr")).push hb' halloca
    have hslot : (Value.result g.count (.ptr .i32)).IsSlot m
        (((g.useName (x ++ ".addr")).push i b (.alloca (g.freshName (x ++ ".addr")) .i32 4)).code
        ps) .i32 :=
      .own (hb'.instrAt?_push _)
    -- the parameter that is stored is the one at this index of the function
    have hhead : (ps.map (·.ty))[index]? = some .i32 := by
      rw [← Nat.add_zero index, ← List.getElem?_drop, ← hrest]
      rfl
    rw [List.getElem?_map] at hhead
    obtain ⟨q, hq, hqty⟩ := Option.map_eq_some_iff.mp hhead
    have hstore : (Op.store (.param index .i32) (.result g.count (.ptr .i32))).WellTyped m _ :=
      .pair hslot rfl ⟨hqty ▸ .param hq, nofun⟩ hslot.operand
    have hstored := (hmade.push (hb'.push _) hstore).bind x func
      (hslot.widen (Frame.extends_push (hb'.push _) _).widens)
    have htail : rest.map (·.ty) = (ps.map (·.ty)).drop (index + 1) := by
      rw [← List.tail_drop, ← hrest]
      rfl
    obtain ⟨k, hk⟩ := ih hstored (fun p hp => hnumbers p (List.mem_cons_of_mem _ hp)) htail hrun
    exact ⟨k, hstored.trans hk⟩

end

end CSubset.Lowering
