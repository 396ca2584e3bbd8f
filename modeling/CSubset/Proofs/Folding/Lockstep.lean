import CSubset.Proofs.Folding.Alike

/-!
# Lowering a tree and its folded copy

From states that are alike, whenever a tree is lowered so is its folded copy, and the states are
alike again (`lowers_of_folded`); the two results have one type. Where arithmetic has been folded
the tree appends an instruction and the copy appends nothing: the operands have become constants,
which are lowered without an effect.
-/

namespace CSubset.Lowering

open IR Node

variable {s s' t : State} {y x x' v : Value} {n : Option Node} {u : Unit} {want : Ty} {m : Node}
  {ms ns : List (Option Node)} {op : Op}

/-! ## Primitive steps -/

theorem emit_alike {op' : Op} (h : Gives (emit op) s v s') (hst : s.AlikeInside t)
    (hop : op'.shape = op.shape) :
    ∃ v' t', Gives (emit op') t v' t' ∧ s'.AlikeInside t' ∧ v'.ty = v.ty := by
  obtain ⟨f, i, b, hf, hb, rfl, rfl⟩ := gives_emit.mp h
  obtain ⟨g, hg, hfg⟩ := hst.frame_eq_some hf
  obtain ⟨c, hc, hbc⟩ := hfg.filling hb
  have hty : op'.ty = op.ty := by rw [← op'.ty_shape, hop, op.ty_shape]
  exact ⟨_, _, gives_emit.mpr ⟨g, i, c, hg, hc, rfl, rfl⟩, .of_frames hst.toAlike
    (hfg.push hbc hop), hty⟩

/-- Arithmetic may be left out. -/
theorem emit_alike_left (h : Gives (emit op) s v s') (hst : s.AlikeInside t)
    (hop : op.shape.isArithmetic = true) : s'.AlikeInside t := by
  obtain ⟨f, i, b, hf, hb, rfl, rfl⟩ := gives_emit.mp h
  obtain ⟨g, hg, hfg⟩ := hst.frame_eq_some hf
  rw [← State.withFrame_self hg]
  exact .of_frames hst.toAlike (hfg.push_left hb hop)

theorem close_alike {e e' : Term} (h : Gives (close e) s u s') (hst : s.AlikeInside t)
    (he : e'.shape = e.shape) : ∃ t', Gives (close e') t u t' ∧ s'.AlikeInside t' := by
  obtain ⟨f, i, b, hf, hb, rfl⟩ := gives_close.mp h
  obtain ⟨g, hg, hfg⟩ := hst.frame_eq_some hf
  obtain ⟨c, hc, hbc⟩ := hfg.filling hb
  exact ⟨_, gives_close.mpr ⟨g, i, c, hg, hc, rfl⟩, .of_frames hst.toAlike (hfg.finish hbc he)⟩

theorem load_alike (h : Gives (load x) s y s') (hst : s.AlikeInside t) (hx : x'.ty = x.ty) :
    ∃ y' t', Gives (load x') t y' t' ∧ s'.AlikeInside t' ∧ y'.ty = y.ty := by
  rcases gives_load.mp h with ⟨elem, helem, hemit⟩ | ⟨hnone, rfl, rfl⟩
  · have hshape : (Op.load elem x').shape = (Op.load elem x).shape := by rw [Op.shape, Op.shape, hx]
    obtain ⟨y', t', hemit', hst', hy⟩ := emit_alike hemit hst hshape
    exact ⟨y', t', gives_load.mpr (.inl ⟨elem, hx.trans helem, hemit'⟩), hst', hy⟩
  · exact ⟨x', t, gives_load.mpr (.inr ⟨by rw [hx, hnone], rfl, rfl⟩), hst, hx⟩

theorem coerce_alike {n : Node} (h : Gives (coerce n x want) s y s') (hst : s.AlikeInside t)
    (hx : x'.ty = x.ty) :
    ∃ y' t', Gives (coerce m x' want) t y' t' ∧ s'.AlikeInside t' ∧ y'.ty = y.ty := by
  rcases gives_coerce.mp h with ⟨hty, rfl, rfl⟩ | ⟨hty, rfl, hemit⟩ | ⟨hty, rfl, hemit⟩
  · exact ⟨x', t, gives_coerce.mpr (.inl ⟨hx.trans hty, rfl, rfl⟩), hst, hx⟩
  · have hshape : (Op.zext x' .i32).shape = (Op.zext x .i32).shape := by rw [Op.shape, Op.shape, hx]
    obtain ⟨y', t', hemit', hst', hy⟩ := emit_alike hemit hst hshape
    exact ⟨y', t', gives_coerce.mpr (.inr (.inl ⟨hx.trans hty, rfl, hemit'⟩)), hst', hy⟩
  · have hshape : (Op.icmp .ne x' (.const 0)).shape = (Op.icmp .ne x (.const 0)).shape := by
      rw [Op.shape, Op.shape, hx]
    obtain ⟨y', t', hemit', hst', hy⟩ := emit_alike hemit hst hshape
    exact ⟨y', t', gives_coerce.mpr (.inr (.inr ⟨hx.trans hty, rfl, hemit'⟩)), hst', hy⟩

/-! ## Operands -/

/-- From states that are alike, lowering `n` can be followed by lowering `m`. -/
def Lowers (n m : Node) : Prop :=
  ∀ ⦃s s' t : State⦄ ⦃v : Option Value⦄, Gives (visit n) s v s' → s.AlikeInside t →
    ∃ v' t', Gives (visit m) t v' t' ∧ s'.AlikeInside t' ∧ v'.map Value.ty = v.map Value.ty

theorem visitOperand_alike {m : Option Node} (hnm : Both Lowers n m)
    (h : Gives (visitOperand want n) s y s') (hst : s.AlikeInside t) :
    ∃ y' t', Gives (visitOperand want m) t y' t' ∧ s'.AlikeInside t' ∧ y'.ty = y.ty := by
  obtain ⟨n, u, s₁, x, s₂, rfl, hvisit, hload, hcoerce⟩ := gives_visitOperand.mp h
  obtain ⟨m, rfl, -, hlowers⟩ := eq_some_of_rel hnm rfl
  obtain ⟨u', t₁, hvisit', hst₁, hu⟩ := hlowers hvisit hst
  obtain ⟨u', rfl, hty⟩ := Option.map_eq_some_iff.mp hu
  obtain ⟨x', t₂, hload', hst₂, hx⟩ := load_alike hload hst₁ hty
  obtain ⟨y', t', hcoerce', hst', hy⟩ := coerce_alike (m := m) hcoerce hst₂ hx
  exact ⟨y', t', gives_visitOperand.mpr ⟨m, u', t₁, x', t₂, rfl, hvisit', hload', hcoerce'⟩, hst',
    hy⟩

theorem visitOperands_alike {types : List Ty} {ys : List Value}
    (hnm : List.Forall₂ (Both Lowers) ns ms) (h : Gives (visitOperands types ns) s ys s')
    (hst : s.AlikeInside t) :
    ∃ ys' t', Gives (visitOperands types ms) t ys' t' ∧ s'.AlikeInside t' ∧
      ys'.map Value.ty = ys.map Value.ty := by
  induction hnm generalizing types s t ys with
  | nil =>
    obtain ⟨rfl, rfl⟩ := gives_visitOperands_nil.mp h
    exact ⟨[], t, gives_visitOperands_nil.mpr ⟨rfl, rfl⟩, hst, rfl⟩
  | cons hfirst _ ih =>
    obtain ⟨y, s₁, rest, hy, hrest, rfl⟩ := gives_visitOperands_cons.mp h
    obtain ⟨y', t₁, hy', hst₁, hty⟩ := visitOperand_alike hfirst hy hst
    obtain ⟨rest', t', hrest', hst', htys⟩ := ih hrest hst₁
    refine ⟨y' :: rest', t', gives_visitOperands_cons.mpr
      ⟨y', t₁, rest', hy', hrest', rfl⟩, hst', ?_⟩
    rw [List.map_cons, List.map_cons, hty, htys]

theorem visitOperand_ty (h : Gives (visitOperand want n) s y s') : y.ty = want := by
  obtain ⟨_, _, _, x, _, -, -, -, hcoerce⟩ := gives_visitOperand.mp h
  rcases gives_coerce.mp hcoerce with ⟨hty, rfl, -⟩ | ⟨-, rfl, hemit⟩ | ⟨-, rfl, hemit⟩
  · exact hty
  · obtain ⟨_, _, _, -, -, rfl, -⟩ := gives_emit.mp hemit
    rfl
  · obtain ⟨_, _, _, -, -, rfl, -⟩ := gives_emit.mp hemit
    rfl

/-- A constant is lowered without an effect. -/
theorem visitOperand_const {stamp : Stamp} {c : Int32} {t' : State}
    (h : Gives (visitOperand .i32 (some (.leaf stamp (.intConst c)))) t y t') : t' = t := by
  obtain ⟨n, u, t₁, x, t₂, hn, hvisit, hload, hcoerce⟩ := gives_visitOperand.mp h
  obtain rfl := Option.some.inj hn
  rcases gives_visit_leaf.mp hvisit with ⟨c, -, hu, rfl⟩ | ⟨_, _, _, hform, -⟩
  · obtain rfl := Option.some.inj hu
    rcases gives_load.mp hload with ⟨elem, helem, -⟩ | ⟨-, rfl, rfl⟩
    · cases helem
    · rcases gives_coerce.mp hcoerce with ⟨-, -, rfl⟩ | ⟨hty, -⟩ | ⟨-, hwant, -⟩
      · rfl
      · cases hty
      · cases hwant
  · cases hform

/-! ## Expressions

An expression and its copy are lowered to values of one type, but the copy may need fewer
instructions. -/

/-- The shape of an operator's instruction depends on the types of the operands only. -/
theorem instruction?_shape {form : BinaryForm} {ty : Ty} {op : Value → Value → Op} {y' : Value}
    (hform : form.instruction? = some (ty, op)) (hx : x'.ty = x.ty) (hy : y'.ty = y.ty) :
    (op x' y').shape = (op x y).shape := by
  unfold BinaryForm.instruction? at hform
  split at hform <;> cases hform <;> simp only [Op.shape, hx, hy]

section Forms

variable {stamp stamp' : Stamp} {v : Option Value}
  {left right left' right' args args' : Option Node} {form : BinaryForm}

/-- What lowering `m` has to give for the result `v` and the state `s'`. -/
abbrev LowersTo (m : Node) (t : State) (v : Option Value) (s' : State) : Prop :=
  ∃ v' t', Gives (visit m) t v' t' ∧ s'.AlikeInside t' ∧ v'.map Value.ty = v.map Value.ty

theorem lowersTo_leaf {form : Leaf} (h : Gives (visit (.leaf stamp form)) s v s')
    (hst : s.AlikeInside t) : LowersTo (.leaf stamp' form) t v s' := by
  rcases gives_visit_leaf.mp h with ⟨c, rfl, rfl, rfl⟩ | ⟨x, stars, slot, rfl, hx, rfl, rfl⟩
  · exact ⟨_, t, gives_visit_leaf.mpr (.inl ⟨c, rfl, rfl, rfl⟩), hst, rfl⟩
  · obtain ⟨slot', hx', hty⟩ := hst.resolves hx
    refine ⟨some slot', t, gives_visit_leaf.mpr
      (.inr ⟨x, stars, slot', rfl, hx', rfl, rfl⟩), hst, ?_⟩
    rw [Option.map_some, Option.map_some, hty]

theorem lowersTo_operator {ty : Ty} {op : Value → Value → Op}
    (hform : form.instruction? = some (ty, op)) (hleft : Both Lowers left left')
    (hright : Both Lowers right right') (h : Gives (visit (.binary stamp form left right)) s v s')
    (hst : s.AlikeInside t) : LowersTo (.binary stamp' form left' right') t v s' := by
  obtain ⟨x, s₁, y, s₂, w, hx, hy, hemit, rfl⟩ := (gives_visit_operator hform).mp h
  obtain ⟨x', t₁, hx', hst₁, hxty⟩ := visitOperand_alike hleft hx hst
  obtain ⟨y', t₂, hy', hst₂, hyty⟩ := visitOperand_alike hright hy hst₁
  obtain ⟨w', t', hemit', hst', hw⟩ := emit_alike hemit hst₂ (instruction?_shape hform hxty hyty)
  refine ⟨some w', t', (gives_visit_operator hform).mpr
    ⟨x', t₁, y', t₂, w', hx', hy', hemit', rfl⟩, hst', ?_⟩
  rw [Option.map_some, Option.map_some, hw]

/-- Arithmetic on constants appends an instruction where its copy appends none. -/
theorem lowersTo_constant {op : ArithOp} {l₁ l₂ : Stamp} {c d e : Int32}
    (hleft : Both Lowers left (some (.leaf l₁ (.intConst c))))
    (hright : Both Lowers right (some (.leaf l₂ (.intConst d))))
    (h : Gives (visit (.binary stamp (.arithmetic (.known op)) left right)) s v s')
    (hst : s.AlikeInside t) : LowersTo (.leaf stamp' (.intConst e)) t v s' := by
  obtain ⟨x, s₁, y, s₂, w, hx, hy, hemit, rfl⟩ := (gives_visit_operator rfl).mp h
  obtain ⟨x', t₁, hx', hst₁, -⟩ := visitOperand_alike hleft hx hst
  obtain rfl := visitOperand_const hx'
  obtain ⟨y', t₂, hy', hst₂, -⟩ := visitOperand_alike hright hy hst₁
  obtain rfl := visitOperand_const hy'
  have harith : (Op.binary (arithmeticOp op) x y).shape.isArithmetic = true := by
    cases op <;> rfl
  have hty : w.ty = .i32 := by
    obtain ⟨_, _, _, _, _, rfl, -⟩ := gives_emit.mp hemit
    show x.ty = .i32
    exact visitOperand_ty hx
  refine ⟨some (.const e), t₂, gives_visit_leaf.mpr (.inl ⟨e, rfl, rfl, rfl⟩),
    emit_alike_left hemit hst₂ harith, ?_⟩
  rw [Option.map_some, Option.map_some, hty]
  rfl

/-- The amount of a shift is a literal, which is its own copy. -/
theorem lowersTo_shift {op : BinOp} (hform : form.shift? = some op) (hleft : Both Lowers left left')
    (hright : Option.Rel Folded right right')
    (h : Gives (visit (.binary stamp form left right)) s v s') (hst : s.AlikeInside t) :
    LowersTo (.binary stamp' form left' right') t v s' := by
  obtain ⟨x, s₁, place, k, w, hx, rfl, hk, hemit, rfl⟩ := (gives_visit_shift hform).mp h
  obtain ⟨x', t₁, hx', hst₁, hxty⟩ := visitOperand_alike hleft hx hst
  -- the amount is a constant of the source, which is copied
  obtain ⟨amount, rfl, hamount⟩ := eq_some_of_rel hright rfl
  cases hamount with
  | @leaf _ place' _ _ =>
    have hshape : (Op.binary op x' (.const k)).shape = (Op.binary op x (.const k)).shape := by
      rw [Op.shape, Op.shape, hxty]
    obtain ⟨w', t', hemit', hst', hw⟩ := emit_alike hemit hst₁ hshape
    refine ⟨some w', t', (gives_visit_shift hform).mpr ⟨x', t₁, place', k, w', hx', rfl, hk, hemit',
      rfl⟩, hst', ?_⟩
    rw [Option.map_some, Option.map_some, hw]

theorem lowersTo_assign (hleft : Option.Rel Folded left left') (hright : Both Lowers right right')
    (h : Gives (visit (.binary stamp .assign left right)) s v s') (hst : s.AlikeInside t) :
    LowersTo (.binary stamp' .assign left' right') t v s' := by
  obtain ⟨place, x, stars, slot, y, s₁, w, rfl, hx, hy, hemit, rfl⟩ := gives_visit_assign.mp h
  obtain ⟨target, rfl, htarget⟩ := eq_some_of_rel hleft rfl
  cases htarget with
  | @leaf _ place' _ _ =>
    obtain ⟨slot', hx', hslot⟩ := hst.resolves hx
    obtain ⟨y', t₁, hy', hst₁, hyty⟩ := visitOperand_alike hright hy hst
    have hshape : (Op.store y' slot').shape = (Op.store y slot).shape := by
      rw [Op.shape, Op.shape, hyty, hslot]
    obtain ⟨w', t', hemit', hst', -⟩ := emit_alike hemit hst₁ hshape
    rw [← hslot] at hy'
    refine ⟨some y', t', gives_visit_assign.mpr
      ⟨place', x, stars, slot', y', t₁, w', rfl, hx', hy', hemit', rfl⟩, hst', ?_⟩
    rw [Option.map_some, Option.map_some, hyty]

theorem visitArgs_alike {types : List Ty} {ys : List Value} (hargs : Option.Rel Folded args args')
    (hmembers : ∀ {l l' f items items'}, args = some (.seq l f items) →
      args' = some (.seq l' f items') → List.Forall₂ (Both Lowers) items items')
    (h : Gives (visitArgs types args) s ys s') (hst : s.AlikeInside t) :
    ∃ ys' t', Gives (visitArgs types args') t ys' t' ∧ s'.AlikeInside t' ∧
      ys'.map Value.ty = ys.map Value.ty := by
  rcases gives_visitArgs.mp h with ⟨place, items, rfl, hitems⟩ | ⟨hother, rfl, rfl⟩
  · obtain ⟨copy, rfl, hcopy⟩ := eq_some_of_rel hargs rfl
    cases hcopy with
    | @seq _ place' _ _ items' _ _ =>
      obtain ⟨ys', t', hitems', hst', hys⟩ := visitOperands_alike (hmembers rfl rfl) hitems hst
      exact ⟨ys', t', gives_visitArgs.mpr (.inl ⟨place', items', rfl, hitems'⟩), hst', hys⟩
  · refine ⟨[], t, gives_visitArgs.mpr (.inr ⟨?_, rfl, rfl⟩), hst, rfl⟩
    rintro place' items' rfl
    cases hargs with
    | some hcopy =>
      cases hcopy with
      | seq _ _ => exact hother _ _ rfl

/-- The arguments are lowered in lockstep, to as many values of the same types. -/
theorem lowersTo_call {callee : String} (hargs : Option.Rel Folded args args')
    (hmembers : ∀ {l l' f items items'}, args = some (.seq l f items) →
      args' = some (.seq l' f items') → List.Forall₂ (Both Lowers) items items')
    (h : Gives (visit (.unary stamp (.call callee) args)) s v s') (hst : s.AlikeInside t) :
    LowersTo (.unary stamp' (.call callee) args') t v s' := by
  obtain ⟨fn, values, s₁, w, hfn, hvalues, hemit, rfl⟩ := gives_visit_call.mp h
  obtain ⟨fn', hfn', hthin⟩ := hst.callee? hfn
  obtain ⟨values', t₁, hvalues', hst₁, htys⟩ := visitArgs_alike hargs hmembers hvalues hst
  have hshape : (Op.call fn'.name fn'.ret values').shape =
      (Op.call fn.name fn.ret values).shape := by
    rw [Op.shape, Op.shape, hthin.name, hthin.ret, htys]
  obtain ⟨w', t', hemit', hst', hw⟩ := emit_alike hemit hst₁ hshape
  rw [← hthin.params] at hvalues'
  refine ⟨some w', t', gives_visit_call.mpr ⟨fn', values', t₁, w', hfn', hvalues', hemit',
    rfl⟩, hst', ?_⟩
  rw [Option.map_some, Option.map_some, hw]

end Forms

/-! ## Statements

The blocks are the same in number and order, and end alike. -/

theorem visitStatement_alike {m : Option Node} (hnm : Both Lowers n m)
    (h : Gives (visitStatement n) s u s') (hst : s.AlikeInside t) :
    ∃ t', Gives (visitStatement m) t u t' ∧ s'.AlikeInside t' := by
  rcases gives_visitStatement.mp h with ⟨rfl, rfl⟩ | ⟨n, v, rfl, hvisit⟩
  · exact ⟨t, gives_visitStatement.mpr (.inl ⟨eq_none_of_rel hnm rfl, rfl⟩), hst⟩
  · obtain ⟨m, rfl, -, hlowers⟩ := eq_some_of_rel hnm rfl
    obtain ⟨v', t', hvisit', hst', -⟩ := hlowers hvisit hst
    exact ⟨t', gives_visitStatement.mpr (.inr ⟨m, v', rfl, hvisit'⟩), hst'⟩

theorem visitStatements_alike (hnm : List.Forall₂ (Both Lowers) ns ms)
    (h : Gives (visitStatements ns) s u s') (hst : s.AlikeInside t) :
    ∃ t', Gives (visitStatements ms) t u t' ∧ s'.AlikeInside t' := by
  induction hnm generalizing s t with
  | nil =>
    obtain rfl := gives_visitStatements_nil.mp h
    exact ⟨t, gives_visitStatements_nil.mpr rfl, hst⟩
  | @cons n m ns ms hfirst _ ih =>
    rcases gives_visitStatements_cons.mp h with ⟨hopen, s₁, hstatement, hrest⟩ | ⟨hclosed, rfl⟩
    · obtain ⟨t₁, hstatement', hst₁⟩ := visitStatement_alike hfirst hstatement hst
      obtain ⟨t', hrest', hst'⟩ := ih hrest hst₁
      exact ⟨t', gives_visitStatements_cons.mpr
        (.inl ⟨hst.isOpen.trans hopen, t₁, hstatement', hrest'⟩), hst'⟩
    · -- the statement is skipped with a warning, at the position that its copy has too
      have hpos : m.map Node.pos = n.map Node.pos := by
        rcases rel_cases hfirst with ⟨rfl, rfl⟩ | ⟨n, m, rfl, rfl, hcopy, -⟩
        · rfl
        · rw [Option.map_some, Option.map_some, hcopy.pos_eq]
      refine ⟨_, gives_visitStatements_cons.mpr (.inr ⟨hst.isOpen.trans hclosed, rfl⟩), ?_⟩
      rw [hpos]
      exact ⟨hst.toAlike.warned _, hst.inside⟩

section Forms

variable {stamp stamp' : Stamp} {v : Option Value}
  {cond cond' body body' names names' type type' : Option Node} {x : Variable} {b : Block}
  {f g : Frame} {i : Nat}

theorem lowersTo_block {items items' : List (Option Node)}
    (hitems : List.Forall₂ (Both Lowers) items items')
    (h : Gives (visit (.seq stamp .block items)) s v s') (hst : s.AlikeInside t) :
    LowersTo (.seq stamp' .block items') t v s' := by
  obtain ⟨-, hvisit, rfl⟩ := gives_visit_block.mp h
  obtain ⟨f, g, hf, hg, hfg⟩ := hst.frames
  obtain ⟨t', hvisit', hst'⟩ := visitStatements_alike hitems hvisit hst
  exact ⟨none, t', gives_visit_block.mpr ⟨⟨g, hg⟩, hvisit', rfl⟩, hst', rfl⟩

theorem lowersTo_return {child child' : Option Node} (hchild : Both Lowers child child')
    (h : Gives (visit (.unary stamp .ret child)) s v s') (hst : s.AlikeInside t) :
    LowersTo (.unary stamp' .ret child') t v s' := by
  obtain ⟨f, g, hf, hg, hfg⟩ := hst.frames
  rcases rel_cases hchild with ⟨rfl, rfl⟩ | ⟨n, m, rfl, rfl, hnm⟩
  · obtain ⟨⟨f', hf', hvoid⟩, hclose, rfl⟩ := gives_visit_return_none.mp h
    obtain rfl := Option.mem_unique hf hf'
    obtain ⟨t', hclose', hst'⟩ := close_alike hclose hst rfl
    exact ⟨none, t', gives_visit_return_none.mpr
      ⟨⟨g, hg, hfg.ret.trans hvoid⟩, hclose', rfl⟩, hst', rfl⟩
  · obtain ⟨f', x, s₁, hf', hvoid, hx, hclose, rfl⟩ := gives_visit_return_some.mp h
    obtain rfl := Option.mem_unique hf hf'
    obtain ⟨x', t₁, hx', hst₁, hty⟩ := visitOperand_alike hchild hx hst
    have hshape : (Term.ret (some x')).shape = (Term.ret (some x)).shape := by
      rw [Term.shape, Term.shape, Option.map_some, Option.map_some, hty]
    obtain ⟨t', hclose', hst'⟩ := close_alike hclose hst₁ hshape
    rw [← hfg.ret] at hvoid hx'
    exact ⟨none, t', gives_visit_return_some.mpr
      ⟨g, x', t₁, hg, hvoid, hx', hclose', rfl⟩, hst', rfl⟩

/-- A branch on conditions of one type, where both states have the same open block. -/
theorem alike_branch {d : Block} {c c' : Value} {yes no : Nat} (hst : s.AlikeInside t)
    (hfg : f.Alike g) (hbd : b.Thinned d) (hc : c'.ty = c.ty) :
    (s.withFrame ((f.finish i b (.condBr c yes no)).moveTo (some yes))).AlikeInside
      (t.withFrame ((g.finish i d (.condBr c' yes no)).moveTo (some yes))) := by
  have hshape : (Term.condBr c' yes no).shape = (Term.condBr c yes no).shape := by
    rw [Term.shape, Term.shape, hc]
  exact .of_frames hst.toAlike ((hfg.finish hbd hshape).moveTo _)

theorem lowersTo_ifThen (hcond : Both Lowers cond cond')
    (hbody : Both Lowers body body') (h : Gives (visit (.binary stamp .ifThen cond body)) s v s')
    (hst : s.AlikeInside t) : LowersTo (.binary stamp' .ifThen cond' body') t v s' := by
  obtain ⟨f, c, s₁, f₁, i, b, s₂, f₂, hf, hvisit, hf₁, hb, hthen, hf₂, rfl, rfl⟩ :=
    gives_visit_ifThen.mp h
  obtain ⟨g, hg, hfg⟩ := hst.frame_eq_some hf
  have hadd := State.AlikeInside.of_frames hst.toAlike ((hfg.addBlock "if.then").addBlock "if.end")
  obtain ⟨c', t₁, hvisit', hst₁, hty⟩ := visitOperand_alike hcond hvisit hadd
  obtain ⟨g₁, hg₁, hfg₁⟩ := hst₁.frame_eq_some hf₁
  obtain ⟨d, hd, hbd⟩ := hfg₁.filling hb
  obtain ⟨t₂, hthen', hst₂⟩ := visitStatement_alike hbody hthen (alike_branch hst₁ hfg₁ hbd hty)
  obtain ⟨g₂, hg₂, hfg₂⟩ := hst₂.frame_eq_some hf₂
  rw [← hfg.length] at hthen'
  refine ⟨none, _, gives_visit_ifThen.mpr
    ⟨g, c', t₁, g₁, i, d, t₂, g₂, hg, hvisit', hg₁, hd, hthen', hg₂, rfl, rfl⟩, ?_, rfl⟩
  rw [hfg.length]
  exact .of_frames hst₂.toAlike ((hfg₂.endWith rfl).moveTo _)

/-- Both loops have their blocks in the same places. -/
theorem lowersTo_while (hcond : Both Lowers cond cond')
    (hbody : Both Lowers body body') (h : Gives (visit (.binary stamp .while cond body)) s v s')
    (hst : s.AlikeInside t) : LowersTo (.binary stamp' .while cond' body') t v s' := by
  obtain ⟨f, i, b, c, s₁, f₁, j, e, s₂, f₂, hf, hb, hvisit, hf₁, he, hdo, hf₂, rfl, rfl⟩ :=
    gives_visit_while.mp h
  obtain ⟨g, hg, hfg⟩ := hst.frame_eq_some hf
  have hloop : f.addLoop.Alike g.addLoop :=
    ((hfg.addBlock "while.cond").addBlock "while.body").addBlock "while.end"
  obtain ⟨d, hd, hbd⟩ := hloop.filling hb
  have henter := State.AlikeInside.of_frames hst.toAlike
    ((hloop.finish (i := i) (t := .br f.blocks.length) hbd rfl).moveTo (some f.blocks.length))
  obtain ⟨c', t₁, hvisit', hst₁, hty⟩ := visitOperand_alike hcond hvisit henter
  obtain ⟨g₁, hg₁, hfg₁⟩ := hst₁.frame_eq_some hf₁
  obtain ⟨k, hk, hek⟩ := hfg₁.filling he
  obtain ⟨t₂, hdo', hst₂⟩ := visitStatement_alike hbody hdo (alike_branch hst₁ hfg₁ hek hty)
  obtain ⟨g₂, hg₂, hfg₂⟩ := hst₂.frame_eq_some hf₂
  rw [← hfg.length] at hvisit' hdo'
  refine ⟨none, _, gives_visit_while.mpr
    ⟨g, i, d, c', t₁, g₁, j, k, t₂, g₂, hg, hd, hvisit', hg₁, hk, hdo', hg₂, rfl, rfl⟩, ?_, rfl⟩
  rw [hfg.length]
  exact .of_frames hst₂.toAlike ((hfg₂.endWith rfl).moveTo _)

theorem lowersTo_ifThenElse {thenBody thenBody' elseBody elseBody' : Option Node}
    (hcond : Both Lowers cond cond') (hthen : Both Lowers thenBody thenBody')
    (helse : Both Lowers elseBody elseBody')
    (h : Gives (visit (.ternary stamp .ifThenElse cond thenBody elseBody)) s v s')
    (hst : s.AlikeInside t) :
    LowersTo (.ternary stamp' .ifThenElse cond' thenBody' elseBody') t v s' := by
  obtain ⟨f, c, s₁, f₁, i, b, s₂, f₂, s₃, f₃, hf, hvisit, hf₁, hb, hyes, hf₂, hclosed₂, hno, hf₃,
      hclosed₃, rfl, rfl⟩ :=
    gives_visit_ifThenElse.mp h
  obtain ⟨g, hg, hfg⟩ := hst.frame_eq_some hf
  have hadd := State.AlikeInside.of_frames hst.toAlike ((hfg.addBlock "if.then").addBlock "if.else")
  obtain ⟨c', t₁, hvisit', hst₁, hty⟩ := visitOperand_alike hcond hvisit hadd
  obtain ⟨g₁, hg₁, hfg₁⟩ := hst₁.frame_eq_some hf₁
  obtain ⟨d, hd, hbd⟩ := hfg₁.filling hb
  obtain ⟨t₂, hyes', hst₂⟩ := visitStatement_alike hthen hyes (alike_branch hst₁ hfg₁ hbd hty)
  obtain ⟨g₂, hg₂, hfg₂⟩ := hst₂.frame_eq_some hf₂
  have helseIn :=
    State.AlikeInside.of_frames hst₂.toAlike (hfg₂.moveTo (some (f.blocks.length + 1)))
  obtain ⟨t₃, hno', hst₃⟩ := visitStatement_alike helse hno helseIn
  obtain ⟨g₃, hg₃, hfg₃⟩ := hst₃.frame_eq_some hf₃
  rw [← hfg.length] at hyes' hno'
  exact ⟨none, _, gives_visit_ifThenElse.mpr ⟨g, c', t₁, g₁, i, d, t₂, g₂, t₃, g₃, hg, hvisit', hg₁,
    hd, hyes', hg₂, hfg₂.isOpen.trans hclosed₂, hno', hg₃, hfg₃.isOpen.trans hclosed₃, rfl, rfl⟩,
    .of_frames hst₃.toAlike (hfg₃.moveTo none), rfl⟩

/-! ## Declarations -/

theorem typeWarnings_pos (tag : Coded TypeTag) (hpos : stamp'.pos = stamp.pos) :
    typeWarnings stamp' tag = typeWarnings stamp tag := by
  unfold typeWarnings
  rw [hpos]

/-- The copy of a declaration declares the same variable, with the same warnings. -/
theorem ofNodes?_folded (htype : Option.Rel Folded type type')
    (hnames : Option.Rel Folded names names') (h : Variable.ofNodes? type names = some x) :
    Variable.ofNodes? type' names' = some x := by
  obtain ⟨⟨place, isConst, rfl⟩, place', stars, rfl⟩ := Variable.ofNodes?_eq_some h
  obtain ⟨type', rfl, hcopy⟩ := eq_some_of_rel htype rfl
  obtain ⟨names', rfl, hcopy'⟩ := eq_some_of_rel hnames rfl
  cases hcopy with
  | leaf hpos =>
    cases hcopy' with
    | leaf hpos' =>
      rw [← h]
      simp only [Variable.ofNodes?, typeWarnings_pos _ hpos, hpos']

theorem declareLocal_alike {c : Block} (hst : s.Alike t) (hfg : f.Alike g)
    (hbc : b.Thinned c) : (s.declareLocal x f i b).AlikeInside (t.declareLocal x g i c) := by
  have hslot : Symbol.Alike (.var (.result f.count (.ptr .i32)) (some f.func))
      (.var (.result g.count (.ptr .i32)) (some g.func)) := by
    rw [hfg.func]
    exact .var rfl
  have hshape : (Op.alloca (g.freshName x.name) .i32 (sizeOfTag x.tag)).shape =
      (Op.alloca (f.freshName x.name) .i32 (sizeOfTag x.tag)).shape := by
    rw [hfg.freshName]
  refine ⟨?_, by simp [State.declareLocal]⟩
  exact
    { (hst.warned x.warnings).bind x.name hslot with
      frame := .some ((hfg.useName x.name).push hbc hshape) }

theorem declares_alike (h : s.Declares x s') (hst : s.AlikeInside t) :
    ∃ t', t.Declares x t' ∧ s'.AlikeInside t' := by
  obtain ⟨f, g, hf, hg, hfg⟩ := hst.frames
  obtain ⟨i, b, hb, rfl⟩ := (State.declares_iff_of_frame hf).mp h
  obtain ⟨c, hc, hbc⟩ := hfg.filling hb
  exact ⟨_, (State.declares_iff_of_frame hg).mpr ⟨i, c, hc, rfl⟩,
    declareLocal_alike hst.toAlike hfg hbc⟩

theorem lowersTo_declaration {form : BinaryForm} (hform : form = .declaration ∨ form = .forward)
    (htype : Option.Rel Folded type type') (hnames : Option.Rel Folded names names')
    (h : Gives (visit (.binary stamp form type names)) s v s') (hst : s.AlikeInside t) :
    LowersTo (.binary stamp' form type' names') t v s' := by
  have hvariable : ∃ x, Variable.ofNodes? type names = some x ∧ s.Declares x s' ∧ v = none := by
    rcases hform with rfl | rfl
    · exact gives_visit_declaration.mp h
    · rcases gives_visit_forward.mp h with hx | ⟨_, _, _, _, -, hframe, -⟩
      · exact hx
      · exact absurd hframe hst.inside
  obtain ⟨x, hx, hdeclares, rfl⟩ := hvariable
  obtain ⟨t', hdeclares', hst'⟩ := declares_alike hdeclares hst
  have hx' := ofNodes?_folded htype hnames hx
  refine ⟨none, t', ?_, hst', rfl⟩
  rcases hform with rfl | rfl
  · exact gives_visit_declaration.mpr ⟨x, hx', hdeclares', rfl⟩
  · exact gives_visit_forward.mpr (.inl ⟨x, hx', hdeclares', rfl⟩)

end Forms

/-- Inside functions, lowering a tree can be followed by lowering its folded copy. -/
theorem lowers_of_folded {n : Node} (h : Folded n m) : Lowers n m := by
  refine Folded.ind ?leaf ?seq ?unary ?binary ?constant ?ternary h
  case leaf =>
    intro stamp stamp' form hpos s s' t v hvisit hst
    exact lowersTo_leaf hvisit hst
  case seq =>
    intro stamp stamp' form items items' hpos hitems s s' t v hvisit hst
    cases form with
    | block => exact lowersTo_block hitems hvisit hst
    | program => exact absurd (gives_visit_program.mp hvisit).1 hst.inside
    | parameters => exact absurd hvisit not_gives_visit_parameters
  case unary =>
    intro stamp stamp' form child child' hpos hchild hmembers s s' t v hvisit hst
    cases form with
    | call callee => exact lowersTo_call hchild.folded hmembers hvisit hst
    | ret => exact lowersTo_return hchild hvisit hst
    | signature name => exact absurd hvisit not_gives_visit_signature
  case binary =>
    intro stamp stamp' form left left' right right' hpos hleft hright hnone s s' t v hvisit hst
    rcases form.view with ⟨ty, op, hop⟩ | ⟨op, hop⟩ | hunknown | rfl | hform | hform | rfl | rfl
    · exact lowersTo_operator hop hleft hright hvisit hst
    · exact lowersTo_shift hop hleft hright.folded hvisit hst
    · exact absurd hvisit (not_gives_visit_unknown hunknown)
    · exact lowersTo_assign hleft.folded hright hvisit hst
    · exact lowersTo_declaration (.inl hform) hleft.folded hright.folded hvisit hst
    · exact lowersTo_declaration (.inr hform) hleft.folded hright.folded hvisit hst
    · exact lowersTo_ifThen hleft hright hvisit hst
    · exact lowersTo_while hleft hright hvisit hst
  case constant =>
    intro stamp stamp' form left left' right right' e hpos hleft hright he s s' t v hvisit hst
    obtain ⟨op, l₁, c, l₂, d, rfl, rfl, rfl, hvalue⟩ := BinaryForm.constant?_eq_some.mp he
    cases op with
    | known op => exact lowersTo_constant hleft hright hvisit hst
    | unknown code => cases hvalue
  case ternary =>
    intro stamp stamp' form first first' second second' third third' hpos hfirst hsecond hthird s
      s' t v hvisit hst
    cases form with
    | ifThenElse => exact lowersTo_ifThenElse hfirst hsecond hthird hvisit hst
    | definition =>
      obtain ⟨_, _, _, _, hframe, -⟩ := gives_visit_definition_iff.mp hvisit
      exact absurd hframe hst.inside

end CSubset.Lowering
