import CSubset.Proofs.Dominance.Frames
import CSubset.Proofs.Dominance.Scoping
import CSubset.Proofs.Execution.Success
import CSubset.Proofs.Simulation.Bindings

/-!
# Dominance in expressions

While a body is lowered, each declaration has a slot and is in force or not (`Entry`). For one in
force the slot is there; for any other there is a path that has missed it (`Standing`). So lowering
an operand either keeps the certificate, if all variables in it are in force, or adds a use that a
path has strayed to (`Judged`).
-/

namespace CSubset.Dominance

open Lowering IR Scoping
open Simulation (Bindings)

variable {claims : Nat → List Nat} {s s' s₁ : State} {f g : Frame} {n : Nat} {op : Op}
  {v x y : Value}

/-! ## Declarations -/

/-- A declaration that has been lowered: the instruction that makes its slot, and whether it is in
force. -/
structure Entry where
  name : String
  slot : Nat
  inForce : Bool

/-- The declarations of a function so far, latest first. -/
abbrev Entries := List Entry

namespace Entries

def bindings (M : Entries) : Bindings := M.map fun e => (e.name, some e.slot)

def env (M : Entries) : Env := M.map fun e => (e.name, e.inForce)

/-- The latest declaration of a name, as both sides see it. -/
theorem lookup (M : Entries) (name : String) :
    (M.bindings.find? name = none ∧ M.env.lookup name = none) ∨
      ∃ e ∈ M, ∃ k, M.bindings.find? name = some (k, some e.slot) ∧
        M.env.lookup name = some e.inForce := by
  induction M with
  | nil => exact .inl ⟨rfl, rfl⟩
  | cons e older ih =>
    by_cases hname : e.name = name
    · refine .inr ⟨e, List.mem_cons_self, (bindings older).length, ?_, ?_⟩
      · simp [bindings, Bindings.find?, hname]
      · simp [env, hname]
    · have hbindings : (bindings (e :: older)).find? name = (bindings older).find? name := by
        simp [bindings, Bindings.find?, hname]
      have henv : (env (e :: older)).lookup name = (env older).lookup name := by
        simp [env, List.lookup_cons, beq_false_of_ne (Ne.symm hname)]
      rw [hbindings, henv]
      rcases ih with hnone | ⟨e', he', hfound⟩
      · exact .inl hnone
      · exact .inr ⟨e', List.mem_cons_of_mem _ he', hfound⟩

end Entries

/-- The value is there, or is no result. -/
def Has (f : Frame) (claims : Nat → List Nat) (v : Value) : Prop :=
  ∀ n, v.number? = some n → f.Here claims n

theorem here_emits (hn : f.Here claims n) (hg : f.Emits g) : g.Here claims n := by
  induction hg with
  | refl => exact hn
  | push _ hb _ ih => exact ih.push hb _

theorem missed_emits (hn : f.Missed n) (hg : f.Emits g) : g.Missed n := by
  induction hg with
  | refl => exact hn
  | push _ hb _ ih => exact ih.push hb _

theorem Has.emits (hv : Has f claims v) (hg : f.Emits g) : Has g claims v :=
  fun n hn => here_emits (hv n hn) hg

/-! ## The state of an open body -/

/-- The certificate so far, where the declarations in force have their slots, and paths that have
missed the others. -/
structure Standing (claims : Nat → List Nat) (M : Entries) (s : State) (f : Frame) : Prop where
  tracks : M.bindings.Tracks s f
  certificate : Certificate claims f.blocks
  here : ∀ e ∈ M, e.inForce = true → f.Here claims e.slot
  reached : ∃ passed, f.Reached passed
  missed : ∀ e ∈ M, e.inForce = false → f.Missed e.slot

/-- The body under construction has a use that a path has strayed to. -/
def StrayIn (s : State) : Prop := ∃ f, s.frame = some f ∧ Stray f.blocks

theorem StrayIn.within (h : StrayIn s) (hs : ∀ f, s.frame = some f → ∃ g, s.Within s' f g) :
    StrayIn s' := by
  obtain ⟨f, hf, hstray⟩ := h
  obtain ⟨g, hwithin⟩ := hs f hf
  exact ⟨g, hwithin.frame, hstray.grow hwithin.grows.grow⟩

theorem StrayIn.emits (h : StrayIn s) (hs : s.Emits s') : StrayIn s' :=
  h.within fun _ hf => (hs.within hf).imp fun _ hg => hg.2

namespace Standing

variable {M : Entries} (h : Standing claims M s f)

include h

/-- An instruction is appended that uses what is there. -/
theorem push {i : Nat} {b : Block} (hb : f.Filling i b) (huses : ∀ n ∈ op.uses, f.Here claims n)
    (hframe : s'.frame = some (f.push i b op)) (hsymbols : s'.symbols = s.symbols) :
    Standing claims M s' (f.push i b op) := by
  refine ⟨?_, h.certificate.push hb huses, ?_, ?_, ?_⟩
  · exact h.tracks.extend hframe hsymbols (Frame.extends_push hb op)
  · exact fun e he hforce => (h.here e he hforce).push hb op
  · obtain ⟨passed, hpath⟩ := h.reached
    exact ⟨_, hpath.push hb op⟩
  · exact fun e he hlapsed => (h.missed e he hlapsed).push hb op

theorem emit (hop : op.isSlot = false) (huses : ∀ n ∈ op.uses, f.Here claims n)
    (hv : Gives (Lowering.emit op) s v s') :
    ∃ g, f.Emits g ∧ Standing claims M s' g ∧ Has g claims v := by
  obtain ⟨f', i, b, hf', hb, rfl, rfl⟩ := gives_emit.mp hv
  obtain rfl := Option.mem_unique h.tracks.frame hf'
  refine ⟨_, .push .refl hb hop, h.push hb huses rfl rfl, ?_⟩
  intro n hn
  obtain rfl : f.count = n := Option.some.inj hn
  exact hb.here_push op

/-- An instruction that uses a slot that a path has missed. -/
theorem stray (hn : n ∈ op.uses) (hmiss : f.Missed n) (hv : Gives (Lowering.emit op) s v s') :
    StrayIn s' := by
  obtain ⟨-, passed, hpath, hmiss⟩ := hmiss
  obtain ⟨f', i, b, hf', hb, rfl, rfl⟩ := gives_emit.mp hv
  obtain rfl := Option.mem_unique h.tracks.frame hf'
  have hx : instrAt? (f.push i b op).blocks i b.instrs.length = some ⟨f.count, op⟩ :=
    (Frame.instrAt?_push hb).mpr (.inr ⟨rfl, rfl, rfl⟩)
  exact ⟨_, rfl, i, b.instrs.length, n, passed, .instr hx hn,
    (hpath.path hb).grow (Frame.extends_push hb op).grow, hmiss⟩

/-- A name stands for a slot that is there if it is permitted, and else for one that a path has
missed. -/
theorem resolves {name : String} {slot : Value} (hslot : s.Resolves name slot) :
    (M.env.permits [name] = true ∧ Has f claims slot) ∨
      (M.env.permits [name] = false ∧ ∃ n, slot.number? = some n ∧ f.Missed n) := by
  obtain ⟨-, hglobal, hlocal⟩ := h.tracks.resolves hslot
  rcases M.lookup name with ⟨hnone, hlookup⟩ | ⟨e, he, k, hfind, hlookup⟩
  · left
    refine ⟨by simp [Env.permits, Tree.singleName?, hlookup], ?_⟩
    rw [hglobal hnone]
    exact fun n hn => by cases hn
  · rw [hlocal k e.slot hfind]
    cases hforce : e.inForce with
    | true =>
      left
      refine ⟨by simp [Env.permits, Tree.singleName?, hlookup, hforce], ?_⟩
      intro n hn
      obtain rfl : e.slot = n := Option.some.inj hn
      exact h.here e he hforce
    | false =>
      right
      refine ⟨?_, e.slot, rfl, h.missed e he hforce⟩
      simp [Env.permits, Tree.singleName?, hlookup, hforce]

theorem load (hx : Has f claims x) (hy : Gives (Lowering.load x) s y s') :
    ∃ g, f.Emits g ∧ Standing claims M s' g ∧ Has g claims y := by
  rcases gives_load.mp hy with ⟨elem, -, hemit⟩ | ⟨-, rfl, rfl⟩
  · refine h.emit rfl (fun n hn => hx n ?_) hemit
    simpa [Op.uses, Op.operands] using hn
  · exact ⟨f, .refl, h, hx⟩

theorem coerce {node : Node} {want : Ty} (hx : Has f claims x)
    (hy : Gives (Lowering.coerce node x want) s y s') :
    ∃ g, f.Emits g ∧ Standing claims M s' g ∧ Has g claims y := by
  rcases gives_coerce.mp hy with ⟨-, rfl, rfl⟩ | ⟨-, -, hemit⟩ | ⟨-, -, hemit⟩
  · exact ⟨f, .refl, h, hx⟩
  · refine h.emit rfl (fun n hn => hx n ?_) hemit
    simpa [Op.uses, Op.operands] using hn
  · refine h.emit rfl (fun n hn => hx n ?_) hemit
    simpa [Op.uses, Op.operands, Value.number?] using hn

end Standing

/-! ## Operands -/

/-- What comes of lowering an expression: if its variables are in force the certificate is kept and
the value is there, and else there is a stray use. -/
def Judged (ok : Bool) (claims : Nat → List Nat) (M : Entries) (s' : State) (f : Frame)
    (v : Value) : Prop :=
  (ok = true ∧ ∃ g, f.Emits g ∧ Standing claims M s' g ∧ Has g claims v) ∨ (ok = false ∧ StrayIn s')

/-- What the proof about operands needs to know of a tree. A name by itself is not judged: it is no
use yet. -/
def JudgedTree (t : Node) : Prop :=
  ∀ s u s' f claims M, Gives (visit t) s (some u) s' → Standing claims M s f →
    (∀ l form, t ≠ .leaf l form) → Judged (inForce M.env t) claims M s' f u

theorem judged_operand {M : Entries} {node : Option Node} {want : Ty}
    (hnode : ∀ t, node = some t → JudgedTree t) (hy : Gives (visitOperand want node) s y s')
    (h : Standing claims M s f) : Judged (operandInForce M.env node) claims M s' f y := by
  obtain ⟨t, u, s₁, x, s₂, rfl, hvisit, hload, hcoerce⟩ := gives_visitOperand.mp hy
  -- from a value that is there, the operand is made
  have hrest : ∀ {g}, f.Emits g → Standing claims M s₁ g → Has g claims u →
      ∃ k, f.Emits k ∧ Standing claims M s' k ∧ Has k claims y := by
    intro g hfg hg hu
    obtain ⟨g₁, hg₁, hstanding₁, hx⟩ := hg.load hu hload
    obtain ⟨g₂, hg₂, hstanding₂, hy⟩ := hstanding₁.coerce hx hcoerce
    exact ⟨g₂, (hfg.trans hg₁).trans hg₂, hstanding₂, hy⟩
  by_cases hleaf : ∃ l form, t = .leaf l form
  · obtain ⟨l, form, rfl⟩ := hleaf
    rcases gives_visit_leaf.mp hvisit with ⟨c, rfl, hu, rfl⟩ | ⟨name, stars, slot, rfl,
      hslot, hu, rfl⟩
    · obtain rfl : u = .const c := Option.some.inj hu
      exact .inl ⟨rfl, hrest .refl h fun n hn => by cases hn⟩
    · obtain rfl : u = slot := Option.some.inj hu
      rcases h.resolves hslot with ⟨hok, hhas⟩ | ⟨hbad, n, hn, hmiss⟩
      · exact .inl ⟨hok, hrest .refl h hhas⟩
      · -- the slot is loaded, where a path arrives that has missed it
        refine .inr ⟨hbad, ?_⟩
        have hty := (h.tracks.resolves hslot).1
        rcases gives_load.mp hload with ⟨elem, -, hemit⟩ | ⟨hnone, -, -⟩
        · have huse : n ∈ (Op.load elem u).uses := by simp [Op.uses, Op.operands, hn]
          exact (h.stray huse hmiss hemit).emits (emits_of_gives_coerce hcoerce)
        · rw [hty] at hnone
          cases hnone
  · have hother : ∀ l form, t ≠ .leaf l form := fun l form ht => hleaf ⟨l, form, ht⟩
    have hoperand : operandInForce M.env (some t) = inForce M.env t := by
      cases t with
      | leaf l form => exact absurd rfl (hother l form)
      | _ => rfl
    rw [hoperand]
    rcases hnode t rfl s u s₁ f claims M hvisit h hother with ⟨hok, g, hg, hstanding,
      hu⟩ | ⟨hbad, hstray⟩
    · exact .inl ⟨hok, hrest hg hstanding hu⟩
    · exact .inr ⟨hbad, (hstray.emits (emits_of_gives_load hload)).emits
        (emits_of_gives_coerce hcoerce)⟩

theorem judged_operands {M : Entries} {nodes : List (Option Node)} {types : List Ty}
    {ys : List Value} (hnodes : ∀ t, some t ∈ nodes → JudgedTree t)
    (hys : Gives (visitOperands types nodes) s ys s') (h : Standing claims M s f) :
    (operandsInForce M.env nodes = true ∧ ∃ g, f.Emits g ∧ Standing claims M s' g ∧
      ∀ y ∈ ys, Has g claims y) ∨
      (operandsInForce M.env nodes = false ∧ StrayIn s') := by
  induction nodes generalizing types s f ys with
  | nil =>
    obtain ⟨rfl, rfl⟩ := gives_visitOperands_nil.mp hys
    exact .inl ⟨rfl, f, .refl, h, by simp⟩
  | cons node nodes ih =>
    obtain ⟨y, s₁, rest, hy, hrest, rfl⟩ := gives_visitOperands_cons.mp hys
    have hrestNodes : ∀ t, some t ∈ nodes → JudgedTree t :=
      fun t ht => hnodes t (List.mem_cons_of_mem _ ht)
    rw [operandsInForce]
    rcases judged_operand (fun t ht => hnodes t (ht ▸ List.mem_cons_self)) hy h with
      ⟨hok, g, hg, hstanding, hyHas⟩ | ⟨hbad, hstray⟩
    · rcases ih hrestNodes hrest hstanding with ⟨hok', k, hk, hstanding', hrestHas⟩ | ⟨hbad, hstray⟩
      · refine .inl ⟨by simp [hok, hok'], k, hg.trans hk, hstanding', ?_⟩
        intro z hz
        rcases List.mem_cons.mp hz with rfl | hz
        · exact hyHas.emits hk
        · exact hrestHas z hz
      · exact .inr ⟨by simp [hbad], hstray⟩
    · refine .inr ⟨by simp [hbad], hstray.emits ?_⟩
      exact emits_of_gives_visitOperands (fun t _ => emits_of_gives_visit t) hrest

/-! ## Forms of expressions -/

theorem inForce_binary {env : Env} {stamp : Stamp} {form : BinaryForm} {left right : Option Node}
    (hform : form.isStatement = false) :
    inForce env (.binary stamp form left right) =
      (operandInForce env left && operandInForce env right) := by
  cases form <;> first | rfl | cases hform

section Forms

variable {M : Entries} {stamp : Stamp} {form : BinaryForm} {left right : Option Node} {u : Value}

/-- Two operands, one after the other. -/
theorem judged_pair {a b : Ty} (hleft : ∀ t, left = some t → JudgedTree t)
    (hright : ∀ t, right = some t → JudgedTree t) (hx : Gives (visitOperand a left) s x s₁)
    (hy : Gives (visitOperand b right) s₁ y s') (h : Standing claims M s f) :
    ((operandInForce M.env left && operandInForce M.env right) = true ∧
      ∃ g, f.Emits g ∧ Standing claims M s' g ∧ Has g claims x ∧ Has g claims y) ∨
    ((operandInForce M.env left && operandInForce M.env right) = false ∧ StrayIn s') := by
  rcases judged_operand hleft hx h with ⟨hok, g, hg, hstanding, hxHas⟩ | ⟨hbad, hstray⟩
  · rcases judged_operand hright hy hstanding with ⟨hok', k, hk, hstanding', hyHas⟩ | ⟨hbad, hstray⟩
    · exact .inl ⟨by simp [hok, hok'], k, hg.trans hk, hstanding', hxHas.emits hk, hyHas⟩
    · exact .inr ⟨by simp [hbad], hstray⟩
  · refine .inr ⟨by simp [hbad], hstray.emits ?_⟩
    exact emits_of_gives_visitOperand (fun t _ => emits_of_gives_visit t) hy

theorem judged_operator {ty : Ty} {op : Value → Value → Op}
    (hform : form.instruction? = some (ty, op)) (hleft : ∀ t, left = some t → JudgedTree t)
    (hright : ∀ t, right = some t → JudgedTree t)
    (hu : Gives (visit (.binary stamp form left right)) s (some u) s') (h : Standing claims M s f) :
    Judged (inForce M.env (.binary stamp form left right)) claims M s' f u := by
  obtain ⟨x, s₁, y, s₂, w, hx, hy, hemit, hw⟩ := (gives_visit_operator hform).mp hu
  obtain rfl : u = w := Option.some.inj hw
  have hslot := instruction?_isSlot hform x y
  rw [inForce_binary (isStatement_of_gives_visit hu)]
  rcases judged_pair hleft hright hx hy h with ⟨hok, g, hg, hstanding, hxHas,
    hyHas⟩ | ⟨hbad, hstray⟩
  · have huses : ∀ n ∈ (op x y).uses, g.Here claims n := by
      intro n hn
      have hoperand : x.number? = some n ∨ y.number? = some n := by
        unfold BinaryForm.instruction? at hform
        split at hform <;> cases hform <;> simpa [Op.uses, Op.operands] using hn
      rcases hoperand with hn | hn
      · exact hxHas n hn
      · exact hyHas n hn
    obtain ⟨k, hk, hstanding', huHas⟩ := hstanding.emit hslot huses hemit
    exact .inl ⟨hok, k, hg.trans hk, hstanding', huHas⟩
  · exact .inr ⟨hbad, hstray.emits (emits_of_gives_emit hslot hemit)⟩

theorem judged_shift {op : BinOp} (hform : form.shift? = some op)
    (hleft : ∀ t, left = some t → JudgedTree t)
    (hu : Gives (visit (.binary stamp form left right)) s (some u) s') (h : Standing claims M s f) :
    Judged (inForce M.env (.binary stamp form left right)) claims M s' f u := by
  obtain ⟨x, s₁, place, k, w, hx, rfl, -, hemit, hw⟩ := (gives_visit_shift hform).mp hu
  obtain rfl : u = w := Option.some.inj hw
  have hamount : operandInForce M.env (some (.leaf place (.intConst k) : Node)) = true := rfl
  rw [inForce_binary (isStatement_of_gives_visit hu), hamount, Bool.and_true]
  rcases judged_operand hleft hx h with ⟨hok, g, hg, hstanding, hxHas⟩ | ⟨hbad, hstray⟩
  · have huses : ∀ n ∈ (Op.binary op x (.const k)).uses, g.Here claims n := by
      intro n hn
      exact hxHas n (by simpa [Op.uses, Op.operands, Value.number?] using hn)
    obtain ⟨l, hl, hstanding', huHas⟩ := hstanding.emit rfl huses hemit
    exact .inl ⟨hok, l, hg.trans hl, hstanding', huHas⟩
  · exact .inr ⟨hbad, hstray.emits (emits_of_gives_emit rfl hemit)⟩

theorem judged_assign (hright : ∀ t, right = some t → JudgedTree t)
    (hu : Gives (visit (.binary stamp .assign left right)) s (some u) s')
    (h : Standing claims M s f) :
    Judged (inForce M.env (.binary stamp .assign left right)) claims M s' f u := by
  obtain ⟨place, name, stars, slot, y, s₁, w, rfl, hslot, hy, hemit, hu⟩ := gives_visit_assign.mp hu
  obtain rfl : u = y := Option.some.inj hu
  have htarget : operandInForce M.env (some (.leaf place (.names [name] stars) : Node)) =
      M.env.permits [name] :=
    rfl
  rw [inForce_binary rfl, htarget]
  rcases judged_operand hright hy h with ⟨hok, g, hg, hstanding, huHas⟩ | ⟨hbad, hstray⟩
  · -- the slot is stored to behind the right side, so what is known of it has to be carried there
    rcases h.resolves hslot with ⟨hok', hslotHas⟩ | ⟨hbad, n, hn, hmiss⟩
    · have huses : ∀ n ∈ (Op.store u slot).uses, g.Here claims n := by
        intro n hn
        have hoperand : u.number? = some n ∨ slot.number? = some n := by
          simpa [Op.uses, Op.operands] using hn
        rcases hoperand with hn | hn
        · exact huHas n hn
        · exact hslotHas.emits hg n hn
      obtain ⟨k, hk, hstanding', -⟩ := hstanding.emit rfl huses hemit
      exact .inl ⟨by simp [hok, hok'], k, hg.trans hk, hstanding', huHas.emits hk⟩
    · refine .inr ⟨by simp [hbad], ?_⟩
      have huse : n ∈ (Op.store u slot).uses := by simp [Op.uses, Op.operands, hn]
      exact hstanding.stray huse (missed_emits hmiss hg) hemit
  · exact .inr ⟨by simp [hbad], hstray.emits (emits_of_gives_emit rfl hemit)⟩

theorem judged_call {callee : String} {args : Option Node}
    (hargs : ∀ l form items, args = some (.seq l form items) → ∀ t, some t ∈ items → JudgedTree t)
    (hu : Gives (visit (.unary stamp (.call callee) args)) s (some u) s')
    (h : Standing claims M s f) :
    Judged (inForce M.env (.unary stamp (.call callee) args)) claims M s' f u := by
  obtain ⟨fn, values, s₁, w, -, hvalues, hemit, hw⟩ := gives_visit_call.mp hu
  obtain rfl : u = w := Option.some.inj hw
  have hvaluesJudged : (argsInForce M.env args = true ∧
      ∃ g, f.Emits g ∧ Standing claims M s₁ g ∧ ∀ y ∈ values, Has g claims y) ∨
      (argsInForce M.env args = false ∧ StrayIn s₁) := by
    rcases gives_visitArgs.mp hvalues with ⟨place, items, rfl, hitems⟩ | ⟨hother, rfl, rfl⟩
    · exact judged_operands (hargs _ _ _ rfl) hitems h
    · refine .inl ⟨?_, f, .refl, h, by simp⟩
      unfold argsInForce
      split
      · exact absurd rfl (hother _ _)
      · rfl
  show Judged (argsInForce M.env args) claims M s' f u
  rcases hvaluesJudged with ⟨hok, g, hg, hstanding, hvaluesHas⟩ | ⟨hbad, hstray⟩
  · have huses : ∀ n ∈ (Op.call fn.name fn.ret values).uses, g.Here claims n := by
      intro n hn
      obtain ⟨y, hy, hyn⟩ := List.mem_filterMap.mp hn
      exact hvaluesHas y hy n hyn
    obtain ⟨k, hk, hstanding', huHas⟩ := hstanding.emit rfl huses hemit
    exact .inl ⟨hok, k, hg.trans hk, hstanding', huHas⟩
  · exact .inr ⟨hbad, hstray.emits (emits_of_gives_emit rfl hemit)⟩

end Forms

/-- Lowering an expression is judged by its variables. -/
theorem judgedTree (t : Node) : JudgedTree t := by
  induction t using Tree.ind with
  | leaf l form => exact fun _ _ _ _ _ _ _ _ hleaf => absurd rfl (hleaf l form)
  | seq l form items _ =>
    intro s u s' f claims M hu h _
    -- a block has no value
    cases form with
    | block => simp [gives_visit_block] at hu
    | program => simp [gives_visit_program] at hu
    | parameters => exact absurd hu not_gives_visit_parameters
  | unary l form child _ ihargs =>
    intro s u s' f claims M hu h _
    cases form with
    | call callee => exact judged_call ihargs hu h
    | signature name => exact absurd hu not_gives_visit_signature
    | ret => cases child <;> simp [gives_visit_return_none, gives_visit_return_some] at hu
  | binary l form left right ihl ihr =>
    intro s u s' f claims M hu h _
    rcases form.view with ⟨ty, op, hop⟩ | ⟨op, hop⟩ | hunknown | rfl | rfl | rfl | rfl | rfl
    · exact judged_operator hop ihl ihr hu h
    · exact judged_shift hop ihl hu h
    · exact absurd hu (not_gives_visit_unknown hunknown)
    · exact judged_assign ihr hu h
    all_goals exact absurd (isStatement_of_gives_visit hu) (by simp [BinaryForm.isStatement])
  | ternary l form first second third _ _ _ =>
    intro s u s' f claims M hu h _
    cases form with
    | ifThenElse => simp [gives_visit_ifThenElse] at hu
    | definition => simp [gives_visit_definition] at hu

end CSubset.Dominance
