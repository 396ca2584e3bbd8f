import CSubset.Proofs.LocalNames.Numbered
import CSubset.Proofs.Lowering.Functions
import CSubset.Proofs.Tree.Whole
import Mathlib.Logic.Relation

/-!
# Local names while a body is lowered

Lowering builds a body in small steps (`Frame.Step`): instructions, slots, new blocks, ends of
blocks. A slot and a block get a name that the frame gives out for a base. No step spoils the local
names (`Frame.Distinct`): all are different, and each was given out by the frame, which has counted
it. So the next name for a base is a new one.

Main statement: `steps_of_gives_visit`, lowering a statement takes such steps only, if it declares
variables under words.
-/

namespace CSubset

namespace IR

/-- The name of the slot that an instruction makes. -/
def Op.slotName? : Op → Option String
  | .alloca name _ _ => some name
  | _ => none

/-- The label of a block and the names of its slots. -/
def Block.localNames (b : Block) : List String := b.label :: b.instrs.filterMap (·.op.slotName?)

/-- The names of the parameters, the blocks and the slots. -/
def Func.localNames (fn : Func) : List String :=
  fn.params.map (·.name) ++ fn.blocks.flatMap Block.localNames

theorem Op.slotName?_of_isSlot {op : Op} (h : op.isSlot = false) : op.slotName? = none := by
  cases op <;> first | rfl | cases h

/-- If a block has more names, so has the body. -/
theorem flatMap_localNames_set {blocks : List Block} {i : Nat} {b c : Block} (new : List String)
    (hb : blocks[i]? = some b) (hc : c.localNames.Perm (new ++ b.localNames)) :
    ((blocks.set i c).flatMap Block.localNames).Perm (new ++ blocks.flatMap Block.localNames) := by
  induction blocks generalizing i with
  | nil => cases hb
  | cons d blocks ih =>
    cases i with
    | zero =>
      obtain rfl : d = b := by simpa using hb
      rw [List.set_cons_zero, List.flatMap_cons, List.flatMap_cons, ← List.append_assoc]
      exact hc.append_right _
    | succ i =>
      rw [List.set_cons_succ, List.flatMap_cons, List.flatMap_cons]
      exact ((ih (by simpa using hb)).append_left _).trans (List.perm_append_comm_assoc _ _ _)

end IR

namespace Lowering

open IR (Ty Value Op Term Block Param)

variable {s s' : State} {f g : Frame} {given : List String} {base : String} {u : Unit}
  {given' : List String} {ps : List Param}

/-- What may happen to a frame while a body is lowered. -/
inductive Frame.Step (f : Frame) : Frame → Prop where
  | emit {i : Nat} {b : Block} {op : Op} (hb : f.Filling i b) (hop : op.isSlot = false) : f.Step
    (f.push i b op)
  | slot {i : Nat} {b : Block} {base : String} {elem : Ty} {align : Nat} (hb : f.Filling i b)
    (hbase : IsBase base) :
    f.Step ((f.useName base).push i b (.alloca (f.freshName base) elem align))
  | block {base : String} (hbase : IsBase base) : f.Step (f.addBlock base)
  | finish {i : Nat} {b : Block} (hb : f.Filling i b) (t : Term) : f.Step (f.finish i b t)
  | moveTo (cursor : Option Nat) : f.Step (f.moveTo cursor)

/-- Any number of steps. -/
abbrev Frame.Steps : Frame → Frame → Prop := Relation.ReflTransGen Frame.Step

theorem Frame.Emits.steps (h : f.Emits g) : f.Steps g := by
  induction h with
  | refl => exact .refl
  | push _ hb hop ih => exact ih.tail (.emit hb hop)

theorem Frame.steps_endWith (f : Frame) (t : Term) : f.Steps (f.endWith t) := by
  by_cases ho : f.isOpen = true
  · obtain ⟨i, b, hb⟩ := Frame.isOpen_iff.mp ho
    rw [Frame.endWith_of_filling hb]
    exact .single (.finish hb _)
  · rw [Frame.endWith_of_not_isOpen ho]

/-- The block that is being filled ends, if it is open, and another one is filled. -/
theorem Frame.steps_leave (f : Frame) (t : Term) (next : Option Nat) :
    f.Steps ((f.endWith t).moveTo next) :=
  (f.steps_endWith t).tail (.moveTo next)

/-! ## Names that are given out -/

/-- How many names the frame has given out for a base. -/
def Frame.used (f : Frame) (base : String) : Nat := (f.names.lookup base).getD 0

theorem Frame.freshName_eq (f : Frame) (base : String) :
    f.freshName base = numbered base (f.used base) :=
  rfl

theorem Frame.used_useName (f : Frame) (base other : String) :
    (f.useName base).used other = if other = base then f.used base + 1 else f.used other := by
  unfold Frame.used Frame.useName
  by_cases h : other = base
  · simp [h]
  · have hne : (other == base) = false := by simpa using h
    simp [List.lookup_cons, h, hne]

/-- The names of the blocks and slots, and those given to the parameters, are different and were
given out. -/
structure Frame.Distinct (f : Frame) (given : List String) : Prop where
  nodup : (given ++ f.blocks.flatMap Block.localNames).Nodup
  issued : ∀ x ∈ given ++ f.blocks.flatMap Block.localNames, ∃ base k, IsBase base ∧
    k < f.used base ∧ x = numbered base k

/-- The next name for a base is new. -/
theorem Frame.Distinct.freshName_not_mem (h : f.Distinct given) (hbase : IsBase base) :
    f.freshName base ∉ given ++ f.blocks.flatMap Block.localNames := by
  intro hmem
  obtain ⟨base', k, hbase', hk, heq⟩ := h.issued _ hmem
  rw [Frame.freshName_eq] at heq
  obtain ⟨rfl, rfl⟩ := numbered_inj hbase hbase' heq
  exact absurd hk (Nat.lt_irrefl _)

/-- A change that keeps the names. -/
theorem Frame.Distinct.keep (h : f.Distinct given) (hnames : g.names = f.names)
    (hperm : (given' ++ g.blocks.flatMap Block.localNames).Perm
      (given ++ f.blocks.flatMap Block.localNames)) : g.Distinct given' where
  nodup := hperm.nodup_iff.mpr h.nodup
  issued x hx := by
    obtain ⟨base, k, hbase, hk, heq⟩ := h.issued x (hperm.subset hx)
    exact ⟨base, k, hbase, by rwa [Frame.used, hnames], heq⟩

/-- A change that takes the next name for a base. -/
theorem Frame.Distinct.take (h : f.Distinct given) (hbase : IsBase base)
    (hnames : g.names = (f.useName base).names)
    (hperm : (given' ++ g.blocks.flatMap Block.localNames).Perm
      (f.freshName base :: (given ++ f.blocks.flatMap Block.localNames))) : g.Distinct given' where
  nodup := hperm.nodup_iff.mpr (List.nodup_cons.mpr ⟨h.freshName_not_mem hbase, h.nodup⟩)
  issued x hx := by
    have hused (other : String) : g.used other = if other = base then f.used base + 1
        else f.used other := by
      rw [← Frame.used_useName, Frame.used, hnames]
      rfl
    rcases List.mem_cons.mp (hperm.subset hx) with rfl | hx
    · exact ⟨base, f.used base, hbase, by simp [hused], rfl⟩
    · obtain ⟨other, k, hother, hk, heq⟩ := h.issued x hx
      -- the count for `base` goes up by one, the others stay
      refine ⟨other, k, hother, ?_, heq⟩
      rw [hused]
      split
      next hsame => exact Nat.lt_succ_of_lt (hsame ▸ hk)
      next => exact hk

theorem Frame.Distinct.step (h : f.Distinct given) (hstep : f.Step g) : g.Distinct given := by
  cases hstep with
  | @emit i b op hb hop =>
    refine h.keep rfl (.append_left given ?_)
    refine IR.flatMap_localNames_set [] hb.block ?_
    simp [Block.localNames, IR.Op.slotName?_of_isSlot hop]
  | @slot i b base elem align hb hbase =>
    refine h.take hbase rfl (.trans (.append_left given ?_) List.perm_middle)
    refine IR.flatMap_localNames_set [f.freshName base] hb.block ?_
    have hnames :
        { b with instrs := b.instrs ++ [⟨f.count, .alloca (f.freshName base) elem align⟩] : Block
        }.localNames = b.localNames ++ [f.freshName base] := by
      simp [Block.localNames, Op.slotName?]
    exact hnames ▸ List.perm_append_singleton _ _
  | @block base hbase =>
    have hnames : (f.addBlock base).blocks.flatMap Block.localNames =
        f.blocks.flatMap Block.localNames ++ [f.freshName base] := by
      simp [Frame.addBlock, Block.localNames]
    refine h.take hbase rfl ?_
    rw [hnames, ← List.append_assoc]
    exact List.perm_append_singleton _ _
  | finish hb t =>
    refine h.keep rfl (.append_left given ?_)
    exact IR.flatMap_localNames_set [] hb.block (.refl _)
  | moveTo cursor => exact h.keep rfl (.refl _)

theorem Frame.Distinct.steps (h : f.Distinct given) (hsteps : f.Steps g) : g.Distinct given := by
  induction hsteps with
  | refl => exact h
  | tail _ hstep ih => exact ih.step hstep

/-! ## Parameters -/

theorem Frame.Distinct.empty (name : String) (ret : Ty) :
    Frame.Distinct ⟨name, ret, [], none, [], 0⟩ [] :=
  ⟨List.nodup_nil, nofun⟩

/-- The parameters of a function get different names. -/
theorem Frame.Distinct.renameParams (h : f.Distinct given)
    (hps : ∀ p ∈ ps, IsBase (IR.Name.shown p.name)) :
    (f.renameParams ps).2.Distinct (given ++ (f.renameParams ps).1.map (·.name)) := by
  induction ps generalizing f given with
  | nil => simpa [Frame.renameParams] using h
  | cons p ps ih =>
    obtain ⟨hp, hps⟩ := List.forall_mem_cons.mp hps
    have hfirst : (f.useName (IR.Name.shown p.name)).Distinct
        (given ++ [f.freshName (IR.Name.shown p.name)]) := by
      refine h.take hp rfl ?_
      rw [List.append_assoc]
      exact List.perm_middle
    have hrest := ih hfirst hps
    rw [List.append_assoc] at hrest
    exact hrest

theorem isBase_addr (name : String) : IsBase (name ++ ".addr") := by
  have hsplit : name ++ "." ++ "addr" = name ++ ".addr" := by rw [String.append_assoc]; rfl
  rw [← hsplit]
  exact .of_suffix name (by decide) ⟨'a', by decide, rfl⟩

theorem steps_of_gives_storeParams {func : String} {index : Nat}
    (h : Gives (storeParams func index ps) s u s') (hf : s.frame = some f) :
    ∃ g, s'.frame = some g ∧ f.Steps g := by
  induction ps generalizing s f index with
  | nil =>
    obtain rfl := gives_storeParams_nil.mp h
    exact ⟨f, hf, .refl⟩
  | cons p ps ih =>
    obtain ⟨f', i, b, hf', hb, hrest⟩ := gives_storeParams_cons.mp h
    obtain rfl := Option.mem_unique hf hf'
    have hb' := hb.useName (p.name ++ ".addr")
    -- a slot for the parameter, and a store into it
    obtain ⟨g, hg, hsteps⟩ := ih hrest rfl
    refine ⟨g, hg, .head (.slot hb (isBase_addr p.name)) (.head (.emit (hb'.push _) rfl) hsteps)⟩

/-! ## Statements -/

/-- What the proof about statements needs to know of a child. -/
def Builds (n : Option Node) : Prop :=
  ∀ t, n = some t → t.Naming IsWord → ∀ s v s' f, Gives (visit t) s v s' → s.frame = some f →
    ∃ g, s'.frame = some g ∧ f.Steps g

theorem Builds.steps {n : Option Node} (hn : Builds n) (hnaming : ∀ t, n = some t → t.Naming IsWord)
    (h : Gives (visitStatement n) s u s') (hf : s.frame = some f) :
    ∃ g, s'.frame = some g ∧ f.Steps g := by
  rcases gives_visitStatement.mp h with ⟨-, rfl⟩ | ⟨t, v, rfl, hv⟩
  · exact ⟨f, hf, .refl⟩
  · exact hn t rfl (hnaming t rfl) s v s' f hv hf

theorem steps_of_gives_visitStatements {ns : List (Option Node)} (hns : ∀ n ∈ ns, Builds n)
    (hnaming : ∀ t, some t ∈ ns → t.Naming IsWord) (h : Gives (visitStatements ns) s u s')
    (hf : s.frame = some f) : ∃ g, s'.frame = some g ∧ f.Steps g := by
  induction ns generalizing s f with
  | nil =>
    obtain rfl := gives_visitStatements_nil.mp h
    exact ⟨f, hf, .refl⟩
  | cons n ns ih =>
    rcases gives_visitStatements_cons.mp h with ⟨-, s₁, hn, hrest⟩ | ⟨-, rfl⟩
    · obtain ⟨g, hg, hfg⟩ :=
        (hns n List.mem_cons_self).steps (fun t ht => hnaming t (ht ▸ List.mem_cons_self)) hn hf
      obtain ⟨k, hk, hgk⟩ := ih (fun m hm => hns m (List.mem_cons_of_mem _ hm))
        (fun t ht => hnaming t (List.mem_cons_of_mem _ ht)) hrest hg
      exact ⟨k, hk, hfg.trans hgk⟩
    · exact ⟨f, hf, .refl⟩

/-- The block that is being filled ends behind a condition, and another one is filled. -/
theorem steps_of_gives_condition {cond : Option Node} {c : Value} {i : Nat} {b : Block}
    (hc : Gives (visitOperand .i1 cond) s c s') (hf : s.frame = some f) (hg : s'.frame = some g)
    (hb : g.Filling i b) {t : Term} {next : Option Nat} :
    f.Steps ((g.finish i b t).moveTo next) := by
  obtain ⟨g', hemits, hwithin⟩ := within_of_gives_visitOperand hc hf
  obtain rfl := Option.mem_unique hg hwithin.frame
  exact (hemits.steps.tail (.finish hb _)).tail (.moveTo next)

theorem State.Declares.steps {x : Variable} (hx : s.Declares x s') (hname : IsWord x.name)
    (hf : s.frame = some f) : ∃ g, s'.frame = some g ∧ f.Steps g := by
  obtain ⟨i, b, hb, -, hwithin⟩ := hx.within hf
  exact ⟨_, hwithin.frame, .single (.slot hb (.of_dot_not_mem hname.dot_not_mem))⟩

/-- What the blocks of statements are called. -/
def labelBases : List String :=
  ["entry", "if.then", "if.else", "if.end", "while.cond", "while.body", "while.end"]

theorem isBase_label : ∀ base ∈ labelBases, IsBase base := by
  have hsuffix (stem suffix : String) (c : Char) (hdot : '.' ∉ suffix.toList)
      (hc : c ∈ suffix.toList) (hdigit : c.isDigit = false) : IsBase (stem ++ "." ++ suffix) :=
    .of_suffix stem hdot ⟨c, hc, hdigit⟩
  simp only [labelBases, List.forall_mem_cons]
  refine ⟨.of_dot_not_mem (by decide), ?_, ?_, ?_, ?_, ?_, ?_, nofun⟩
  · exact hsuffix "if" "then" 't' (by decide) (by decide) rfl
  · exact hsuffix "if" "else" 'e' (by decide) (by decide) rfl
  · exact hsuffix "if" "end" 'e' (by decide) (by decide) rfl
  · exact hsuffix "while" "cond" 'c' (by decide) (by decide) rfl
  · exact hsuffix "while" "body" 'b' (by decide) (by decide) rfl
  · exact hsuffix "while" "end" 'e' (by decide) (by decide) rfl

theorem Frame.step_addBlock (f : Frame) (hbase : base ∈ labelBases) : f.Step (f.addBlock base) :=
  .block (isBase_label base hbase)

theorem steps_of_gives_value {t : Node} {u : Value} (hu : Gives (visit t) s (some u) s')
    (hf : s.frame = some f) : ∃ g, s'.frame = some g ∧ f.Steps g := by
  obtain ⟨g, hemits, hwithin⟩ := (emits_of_gives_visit t s u s' hu).within hf
  exact ⟨g, hwithin.frame, hemits.steps⟩

theorem steps_of_gives_visit (t : Node) : Builds (some t) := by
  rintro _ ⟨⟩
  induction t using inside_ind with
  | outside t hnone =>
    intro hnaming s v s' f hv hf
    simp [hnone s v s' hv] at hf
  | expression t ht =>
    intro hnaming s v s' f hv hf
    obtain ⟨u, rfl⟩ := ht.value hv
    exact steps_of_gives_value hv hf
  | block l items ih =>
    intro hnaming s v s' f hv hf
    obtain ⟨-, hitems, -⟩ := gives_visit_block.mp hv
    exact steps_of_gives_visitStatements (fun n hn t ht => ih t (ht ▸ hn)) hnaming.items hitems hf
  | ret l value =>
    intro hnaming s v s' f hv hf
    obtain ⟨s₁, g, i, b, t, hemits, -, hb, -, rfl⟩ := finish_of_gives_return hv hf
    exact ⟨_, rfl, hemits.steps.tail (.finish hb t)⟩
  | declaration l form type names hform =>
    intro hnaming s v s' f hv hf
    obtain ⟨x, hx, hdeclares⟩ := declares_of_gives_visit hform hv hf
    obtain ⟨-, place, stars, hnames⟩ := Variable.ofNodes?_eq_some hx
    subst hnames
    rcases hform with rfl | rfl <;> exact hdeclares.steps hnaming.here hf
  | ifThen l cond body ih =>
    intro hnaming s v s' f hv hf
    obtain ⟨f', c, s₁, g, i, b, s₂, h, hf', hc, hg, hb, hbody, hh, rfl, -⟩ :=
      gives_visit_ifThen.mp hv
    obtain rfl := Option.mem_unique hf hf'
    have hblocks : f.Steps ((f.addBlock "if.then").addBlock "if.end") :=
      .head (f.step_addBlock (by decide)) (.single (Frame.step_addBlock _ (by decide)))
    obtain ⟨_, hk, hthen⟩ := Builds.steps ih (fun _ => hnaming.right) hbody rfl
    obtain rfl := Option.mem_unique hh hk
    exact ⟨_, rfl, hblocks.trans
      ((steps_of_gives_condition hc rfl hg hb).trans (hthen.trans (h.steps_leave _ _)))⟩
  | loop l cond body ih =>
    intro hnaming s v s' f hv hf
    obtain ⟨f', i, b, c, s₁, g, j, d, s₂, h, hf', hb, hc, hg, hd, hbody, hh, rfl, -⟩ :=
      gives_visit_while.mp hv
    obtain rfl := Option.mem_unique hf hf'
    have hblocks : f.Steps f.addLoop :=
      .head (f.step_addBlock (by decide)) (.head (Frame.step_addBlock _ (by decide))
        (.single (Frame.step_addBlock _ (by decide))))
    obtain ⟨_, hk, hloop⟩ := Builds.steps ih (fun _ => hnaming.right) hbody rfl
    obtain rfl := Option.mem_unique hh hk
    -- the open block jumps to the condition, which is filled next
    have hjump :=
      (hblocks.tail (.finish hb (.br f.blocks.length))).tail (.moveTo (some f.blocks.length))
    exact ⟨_, rfl, hjump.trans
      ((steps_of_gives_condition hc rfl hg hd).trans (hloop.trans (h.steps_leave _ _)))⟩
  | ifThenElse l cond body body' ih ih' =>
    intro hnaming s v s' f hv hf
    obtain ⟨-, hsecond, hthird⟩ := hnaming.children
    obtain ⟨f', c, s₁, g, i, b, s₂, h, s₃, k, hf', hc, hg, hb, hthen, hh, -, helse,
        hk, -, rfl, -⟩ :=
      gives_visit_ifThenElse.mp hv
    obtain rfl := Option.mem_unique hf hf'
    have hblocks : f.Steps ((f.addBlock "if.then").addBlock "if.else") :=
      .head (f.step_addBlock (by decide)) (.single (Frame.step_addBlock _ (by decide)))
    obtain ⟨_, hh', hsteps₂⟩ := Builds.steps ih hsecond hthen rfl
    obtain rfl := Option.mem_unique hh hh'
    obtain ⟨_, hk', hsteps₃⟩ := Builds.steps ih' hthird helse rfl
    obtain rfl := Option.mem_unique hk hk'
    have hbodies := (hsteps₂.tail (.moveTo _)).trans (hsteps₃.tail (.moveTo none))
    exact ⟨_, rfl, hblocks.trans ((steps_of_gives_condition hc rfl hg hb).trans hbodies)⟩

end Lowering

end CSubset
