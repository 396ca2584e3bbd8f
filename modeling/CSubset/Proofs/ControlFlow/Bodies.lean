import CSubset.Proofs.ControlFlow.Reach
import CSubset.Proofs.Lowering.Functions

/-!
# Control flow while a body is built

Control enters the code of a statement in the block that is being filled, and gets from there to
every block that the statement adds. Behind the statement each of these blocks has its end, but for
the one that is being filled (`Frame.Carries`). While a branch or a loop is lowered, some of its
blocks wait for their turn; they are kept in a list.

One lemma for each primitive change of a frame says what becomes of this, one for each form of
statement puts them together. Main statement: `sound_of_lowered`, the control flow of a body is
sound once its end is set. The flow check plays no part in it.
-/

namespace CSubset

namespace IR.Flow

/-! ## Sound control flow -/

/-- The first block is the entry and no end leads to it; every block has an end, which leads to
blocks of the body; control gets to every block from the first. -/
structure Sound (blocks : List Block) : Prop where
  entry : ∃ b, blocks[0]? = some b ∧ Lowering.IsEntryLabel b.label
  closed : ∀ b ∈ blocks, b.term ≠ none
  inside : ∀ i, ∀ j ∈ next (endOf blocks) i, 0 < j ∧ j < blocks.length
  reached : ∀ i < blocks.length, Leads (endOf blocks) 0 i

theorem Sound.defect?_eq_none {blocks : List Block} (h : Sound blocks) : defect? blocks = none :=
  defect?_eq_none_iff.mpr ⟨h.closed, h.reached⟩

theorem Leads.grow {bs cs : List Block} {i j : Nat} (h : Leads (endOf bs) i j)
    (hgrow : Grow bs cs) : Leads (endOf cs) i j := by
  induction h with
  | refl => exact .refl
  | step _ hk ih =>
    obtain ⟨b, t, hb, ht, hk⟩ := mem_next_endOf.mp hk
    exact .step ih (mem_next_endOf.mpr ⟨b, t, hgrow.closed hb ht, ht, hk⟩)

end IR.Flow

namespace Lowering

open IR (Ty Value Op Term Block Func Param)
open IR.Flow (Leads endOf)

variable {f g h : Frame} {i j k : Nat} {b c : Block} {ws : List Nat} {s s' : State} {u : Unit}
  {next : Nat} {label : String} {ns : List (Option Node)} {ps : List Param} {t : State}

/-! ## Blocks that are seen to -/

/-- Block `j` has its end. -/
def Frame.Closed (f : Frame) (j : Nat) : Prop := ∃ b, f.blocks[j]? = some b ∧ b.term ≠ none

/-- Block `j` has its end, or it is being filled. -/
def Frame.Attended (f : Frame) (j : Nat) : Prop := f.cursor = some j ∨ f.Closed j

theorem Frame.Closed.grow (hj : f.Closed j) (hfg : f.Extends g) : g.Closed j := by
  obtain ⟨b, hb, hterm⟩ := hj
  obtain ⟨t, ht⟩ := Option.ne_none_iff_exists'.mp hterm
  exact ⟨b, hfg.grow.closed hb ht, hterm⟩

theorem Frame.Attended.grow (hj : f.Attended j) (hfg : f.Extends g)
    (hcursor : g.cursor = f.cursor) : g.Attended j := by
  rcases hj with hj | hj
  · exact .inl (hcursor.trans hj)
  · exact .inr (hj.grow hfg)

/-- If the block that is being filled has its end, every block that is seen to has one. -/
theorem Frame.Attended.closed (hj : f.Attended j) (hlt : j < f.blocks.length)
    (hopen : f.isOpen = false) : f.Closed j := by
  rcases hj with hj | hj
  · refine ⟨f.blocks[j], List.getElem?_eq_getElem hlt, ?_⟩
    intro hterm
    have hfilling : f.Filling j f.blocks[j] := ⟨hj, List.getElem?_eq_getElem hlt, hterm⟩
    rw [Frame.isOpen_iff.mpr ⟨j, _, hfilling⟩] at hopen
    cases hopen
  · exact hj

theorem Frame.isOpen_endWith (f : Frame) (t : Term) : (f.endWith t).isOpen = false := by
  by_cases hopen : f.isOpen = true
  · obtain ⟨i, b, hb⟩ := Frame.isOpen_iff.mp hopen
    rw [Frame.endWith_of_filling hb]
    exact hb.isOpen_finish t
  · rw [Frame.endWith_of_not_isOpen hopen]
    simpa using hopen

/-! ## Code that carries control on

Control gets to every new block, or the block waits for code that is still to come. -/

/-- Frame `g` comes from `f` by code that control enters in block `i`. Control gets from there to
the block that is being filled. It gets to every new block, and these are seen to, apart from those
in `ws`, which wait for their turn. Ends that are new lead to new blocks. -/
structure Frame.Carries (f g : Frame) (i : Nat) (ws : List Nat) : Prop where
  grows : f.Extends g
  here : g.Attended i
  cursor : ∀ j, g.cursor = some j → Leads (endOf g.blocks) i j
  new : ∀ j, f.blocks.length ≤ j → j < g.blocks.length → j ∈ ws ∨
    (g.Attended j ∧ Leads (endOf g.blocks) i j)
  waiting : ∀ j ∈ ws, f.blocks.length ≤ j ∧ g.Waits j
  targets : ∀ (j : Nat) (b : Block) (t : Term), g.blocks[j]? = some b → b.term = some t →
    f.blocks[j]? = some b ∨ ∀ k ∈ t.targets, f.blocks.length ≤ k ∧ k < g.blocks.length

theorem Frame.Waits.lt (hj : f.Waits j) : j < f.blocks.length := by
  obtain ⟨-, label, hblock⟩ := hj
  exact (List.getElem?_eq_some_iff.mp hblock).1

namespace Frame.Carries

variable {t : Term}

theorem refl (hb : f.Filling i b) : f.Carries f i [] where
  grows := .refl f
  here := .inl hb.cursor
  cursor j hj := by
    obtain rfl := Option.mem_unique hb.cursor hj
    exact .refl
  new j hj hlt := by omega
  waiting j hj := by cases hj
  targets j c t hc _ := .inl hc

/-- A change that fills the same block as before. New blocks have to wait. -/
theorem extend {new : List Nat} (hfg : f.Carries g i ws) (hgh : g.Extends h)
    (hcursor : h.cursor = g.cursor)
    (hnew : ∀ j, g.blocks.length ≤ j → j < h.blocks.length → j ∈ new)
    (hwaits : ∀ j ∈ new, g.blocks.length ≤ j ∧ h.Waits j)
    (htargets : ∀ (j : Nat) (b : Block) (t : Term), h.blocks[j]? = some b → b.term = some t →
      g.blocks[j]? = some b ∨ ∀ k ∈ t.targets, f.blocks.length ≤ k ∧ k < h.blocks.length) :
    f.Carries h i (ws ++ new) where
  grows := hfg.grows.trans hgh
  here := hfg.here.grow hgh hcursor
  cursor j hj := (hfg.cursor j (hcursor ▸ hj)).grow hgh.grow
  new j hj hlt := by
    rcases Nat.lt_or_ge j g.blocks.length with hold | hold
    · rcases hfg.new j hj hold with hmem | ⟨hattended, hleads⟩
      · exact .inl (List.mem_append_left _ hmem)
      · exact .inr ⟨hattended.grow hgh hcursor, hleads.grow hgh.grow⟩
    · exact .inl (List.mem_append_right _ (hnew j hold hlt))
  waiting j hj := by
    rcases List.mem_append.mp hj with hj | hj
    · exact ⟨(hfg.waiting j hj).1, (hfg.waiting j hj).2.extend hgh⟩
    · exact ⟨Nat.le_trans hfg.grows.length (hwaits j hj).1, (hwaits j hj).2⟩
  targets j c t hc ht := by
    rcases htargets j c t hc ht with hold | hnew
    · rcases hfg.targets j c t hold ht with hf | hg
      · exact .inl hf
      · exact .inr fun k hk => ⟨(hg k hk).1, Nat.lt_of_lt_of_le (hg k hk).2 hgh.length⟩
    · exact .inr hnew

/-- A change that adds no block. -/
theorem extend_same (hfg : f.Carries g i ws) (hgh : g.Extends h) (hcursor : h.cursor = g.cursor)
    (hlength : h.blocks.length = g.blocks.length)
    (htargets : ∀ (j : Nat) (b : Block) (t : Term), h.blocks[j]? = some b → b.term = some t →
      g.blocks[j]? = some b ∨ ∀ k ∈ t.targets, f.blocks.length ≤ k ∧ k < h.blocks.length) :
    f.Carries h i ws := by
  have hsame : f.Carries h i (ws ++ []) :=
    hfg.extend hgh hcursor (fun j hj hlt => by omega) (by simp) htargets
  rwa [List.append_nil] at hsame

theorem push (hfg : f.Carries g i ws) (hc : g.Filling k c) (op : Op) :
    f.Carries (g.push k c op) i ws :=
  hfg.extend_same (Frame.extends_push hc op) rfl (by simp [Frame.push])
    fun _ _ _ hb ht => .inl (Frame.closed_push hc hb ht)

theorem useName (hfg : f.Carries g i ws) (base : String) : f.Carries (g.useName base) i ws :=
  hfg.extend_same (Frame.extends_useName g base) rfl rfl fun _ _ _ hb _ => .inl hb

theorem addBlock (hfg : f.Carries g i ws) (hc : g.Filling k c) (base : String) :
    f.Carries (g.addBlock base) i (ws ++ [g.blocks.length]) := by
  refine hfg.extend (Frame.extends_addBlock g base) rfl ?_ ?_ fun _ _ _ hb ht => .inl
    (Frame.closed_addBlock hb ht)
  · intro j hj hlt
    rw [Frame.length_addBlock] at hlt
    obtain rfl : j = g.blocks.length := by omega
    exact List.mem_singleton_self _
  · intro j hj
    obtain rfl := List.mem_singleton.mp hj
    exact ⟨Nat.le_refl _, hc.waits base⟩

theorem finish (hfg : f.Carries g i ws) (hc : g.Filling k c)
    (ht : ∀ j ∈ t.targets, f.blocks.length ≤ j ∧ j < g.blocks.length) :
    f.Carries (g.finish k c t) i ws := by
  have hlength : (g.finish k c t).blocks.length = g.blocks.length := by simp [Frame.finish]
  refine hfg.extend_same (Frame.extends_finish hc t) rfl hlength ?_
  intro j b t' hb ht'
  rcases Frame.closed_finish hc hb ht' with ⟨rfl, rfl, rfl⟩ | hold
  · rw [hlength]
    exact .inr ht
  · exact .inl hold

theorem endWith (hfg : f.Carries g i ws)
    (ht : ∀ j ∈ t.targets, f.blocks.length ≤ j ∧ j < g.blocks.length) :
    f.Carries (g.endWith t) i ws := by
  by_cases hopen : g.isOpen = true
  · obtain ⟨k, c, hc⟩ := Frame.isOpen_iff.mp hopen
    rw [Frame.endWith_of_filling hc]
    exact hfg.finish hc ht
  · rwa [Frame.endWith_of_not_isOpen hopen]

/-- Once the block that is being filled has its end, go on with one that waits and that control gets
to. -/
theorem moveTo {next : Nat} (hfg : f.Carries g i (next :: ws)) (hi : i < g.blocks.length)
    (hopen : g.isOpen = false) (hleads : Leads (endOf g.blocks) i next) (hfresh : next ∉ ws) :
    f.Carries (g.moveTo (some next)) i ws where
  grows := by
    refine hfg.grows.moveTo ?_
    rintro _ ⟨⟩
    exact (hfg.waiting next List.mem_cons_self).1
  here := .inr (hfg.here.closed hi hopen)
  cursor := by
    rintro _ ⟨⟩
    exact hleads
  new j hj hlt := by
    rcases hfg.new j hj hlt with hmem | ⟨hattended, hleads⟩
    · rcases List.mem_cons.mp hmem with rfl | hmem
      · exact .inr ⟨.inl rfl, hleads⟩
      · exact .inl hmem
    · exact .inr ⟨.inr (hattended.closed hlt hopen), hleads⟩
  waiting j hj := by
    obtain ⟨hlt, hwaits⟩ := hfg.waiting j (List.mem_cons_of_mem _ hj)
    refine ⟨hlt, hwaits.moveTo ?_⟩
    rintro ⟨⟩
    exact hfresh hj
  targets := hfg.targets

/-- Once the block that is being filled has its end, go on with none. -/
theorem stop (hfg : f.Carries g i []) (hi : i < g.blocks.length) (hopen : g.isOpen = false) :
    f.Carries (g.moveTo none) i [] where
  grows := hfg.grows.moveTo fun _ hj => by cases hj
  here := .inr (hfg.here.closed hi hopen)
  cursor _ hj := by cases hj
  new j hj hlt := by
    rcases hfg.new j hj hlt with hmem | ⟨hattended, hleads⟩
    · cases hmem
    · exact .inr ⟨.inr (hattended.closed hlt hopen), hleads⟩
  waiting _ hj := by cases hj
  targets := hfg.targets

/-- The code of a part, where nothing waits in the end. -/
theorem trans (hfg : f.Carries g i ws) (hc : g.Filling k c) (hgh : g.Carries h k []) :
    f.Carries h i ws where
  grows := hfg.grows.trans hgh.grows
  here := by
    rcases hfg.here with hcursor | hclosed
    · obtain rfl := Option.mem_unique hcursor hc.cursor
      exact hgh.here
    · exact .inr (hclosed.grow hgh.grows)
  cursor j hj := ((hfg.cursor k hc.cursor).grow hgh.grows.grow).trans (hgh.cursor j hj)
  new j hj hlt := by
    rcases Nat.lt_or_ge j g.blocks.length with hold | hold
    · rcases hfg.new j hj hold with hmem | ⟨hcursor | hclosed, hleads⟩
      · exact .inl hmem
      · -- the block that the part starts in
        obtain rfl := Option.mem_unique hcursor hc.cursor
        exact .inr ⟨hgh.here, hleads.grow hgh.grows.grow⟩
      · exact .inr ⟨.inr (hclosed.grow hgh.grows), hleads.grow hgh.grows.grow⟩
    · rcases hgh.new j hold hlt with hmem | ⟨hattended, hleads⟩
      · cases hmem
      · exact .inr ⟨hattended, ((hfg.cursor k hc.cursor).grow hgh.grows.grow).trans hleads⟩
  waiting j hj := ⟨(hfg.waiting j hj).1, (hfg.waiting j hj).2.extend hgh.grows⟩
  targets j b t hb ht := by
    rcases hgh.targets j b t hb ht with hold | hnew
    · rcases hfg.targets j b t hold ht with hf | hg
      · exact .inl hf
      · exact .inr fun k hk => ⟨(hg k hk).1, Nat.lt_of_lt_of_le (hg k hk).2 hgh.grows.length⟩
    · exact .inr fun k hk => ⟨Nat.le_trans hfg.grows.length (hnew k hk).1, (hnew k hk).2⟩

theorem emits (hfg : f.Carries g i ws) (hgh : g.Emits h) : f.Carries h i ws := by
  induction hgh with
  | refl => exact hfg
  | push _ hb _ ih => exact ih.push hb _

end Frame.Carries

/-- Control gets from the block that was being filled to the targets of the end that it has been
given. -/
theorem Frame.Filling.leads (hb : f.Filling i b) {t : Term} (hj : j ∈ t.targets) :
    Leads (endOf (f.finish i b t).blocks) i j :=
  .step .refl
    (IR.Flow.mem_next_endOf.mpr
    ⟨{ b with term := some t }, t, by simp [Frame.finish, hb.lt], rfl, hj⟩)

/-! ## Statements -/

/-- End the block that is being filled and go on with a target that waits. -/
theorem Frame.Carries.jump {e : Term} (hfg : f.Carries g i (next :: ws)) (hi : i < g.blocks.length)
    (hc : g.Filling k c) (he : ∀ j ∈ e.targets, j ∈ next :: ws) (hnext : next ∈ e.targets)
    (hfresh : next ∉ ws) :
    f.Carries ((g.finish k c e).moveTo (some next)) i ws ∧
      (∀ j ∈ e.targets, Leads (endOf ((g.finish k c e).moveTo (some next)).blocks) i j) ∧
      ∃ label, ((g.finish k c e).moveTo (some next)).Filling next ⟨label, [], none⟩ := by
  have hgrows := Frame.extends_finish hc e
  have hleads : ∀ j ∈ e.targets, Leads (endOf (g.finish k c e).blocks) i j := fun j hj =>
    ((hfg.cursor k hc.cursor).grow hgrows.grow).trans (hc.leads hj)
  have hended : f.Carries (g.finish k c e) i (next :: ws) :=
    hfg.finish hc fun j hj => ⟨(hfg.waiting j (he j hj)).1, (hfg.waiting j (he j hj)).2.lt⟩
  refine ⟨?_, hleads, (hended.waiting next List.mem_cons_self).2.filling⟩
  exact hended.moveTo (Nat.lt_of_lt_of_le hi hgrows.length) (hc.isOpen_finish e)
    (hleads next hnext) hfresh

/-- Jump from the end of a body, if control gets there, and go on with the block behind the
statement. -/
theorem Frame.Carries.leave {target : Nat} (hfg : f.Carries g i [next]) (hi : i < g.blocks.length)
    (htarget : f.blocks.length ≤ target ∧ target < g.blocks.length)
    (hleads : Leads (endOf g.blocks) i next) :
    f.Carries ((g.endWith (.br target)).moveTo (some next)) i [] := by
  have hgrows := Frame.extends_endWith g (.br target)
  have hended : f.Carries (g.endWith (.br target)) i [next] := by
    refine hfg.endWith fun j hj => ?_
    obtain rfl : j = target := List.mem_singleton.mp hj
    exact htarget
  exact hended.moveTo (Nat.lt_of_lt_of_le hi hgrows.length) (Frame.isOpen_endWith g _)
    (hleads.grow hgrows.grow)
    List.not_mem_nil

/-- What the proof about statements needs to know of a child. -/
def Carried (n : Option Node) : Prop :=
  ∀ t, n = some t → ∀ s v s' f g i b, Gives (visit t) s v s' → s.frame = some f → f.Filling i b →
    s'.frame = some g → f.Carries g i []

theorem Carried.statement {n : Option Node} (hn : Carried n) (hs : Gives (visitStatement n) s u s')
    (hf : s.frame = some f) (hb : f.Filling i b) (hg : s'.frame = some g) : f.Carries g i [] := by
  rcases gives_visitStatement.mp hs with ⟨-, rfl⟩ | ⟨t, v, rfl, hv⟩
  · obtain rfl := Option.mem_unique hf hg
    exact .refl hb
  · exact hn t rfl s v s' f g i b hv hf hb hg

/-- Statements that cannot be reached are left out. -/
theorem frame_of_gives_visitStatements (hs : Gives (visitStatements ns) s u s')
    (hf : s.frame = some f) (hopen : f.isOpen = false) : s'.frame = some f := by
  cases ns with
  | nil =>
    obtain rfl := gives_visitStatements_nil.mp hs
    exact hf
  | cons n ns =>
    rcases gives_visitStatements_cons.mp hs with ⟨ho, -⟩ | ⟨-, rfl⟩
    · simp [hf, hopen] at ho
    · exact hf

/-- Behind the end of a block nothing is lowered, so control is not carried on from there. -/
theorem carries_statements (hns : ∀ n ∈ ns, Carried n) (hs : Gives (visitStatements ns) s u s')
    (hf : s.frame = some f) (hb : f.Filling i b) (hg : s'.frame = some g) : f.Carries g i [] := by
  induction ns generalizing s f i b with
  | nil =>
    obtain rfl := gives_visitStatements_nil.mp hs
    obtain rfl := Option.mem_unique hf hg
    exact .refl hb
  | cons n ns ih =>
    rcases gives_visitStatements_cons.mp hs with ⟨-, s₁, hn, hrest⟩ | ⟨ho, -⟩
    · obtain ⟨h, hh⟩ := Stays.within (fun t _ => within_of_gives_visit t t rfl) hn hf
      have hfirst := (hns n List.mem_cons_self).statement hn hf hb hh.frame
      cases hopen : h.isOpen with
      | true =>
        obtain ⟨k, c, hc⟩ := Frame.isOpen_iff.mp hopen
        exact hfirst.trans hc (ih (fun m hm => hns m (List.mem_cons_of_mem _ hm)) hrest hh.frame hc)
      | false =>
        -- the first statement has closed the block, so the others are left out
        obtain rfl := Option.mem_unique hg (frame_of_gives_visitStatements hrest hh.frame hopen)
        exact hfirst
    · simp [hf, Frame.isOpen_iff.mpr ⟨i, b, hb⟩] at ho

/-- The code of a condition, with the branch behind it, and go on in the first of the two blocks. -/
theorem Frame.Carries.branch {s₁ : State} {cond : Option Node} {x : Value} {other : Nat}
    (hfg : f.Carries g i [next, other]) (hi : i < f.blocks.length) (hg : t.frame = some g)
    (hcond : Gives (visitOperand .i1 cond) t x s₁) (hh : s₁.frame = some h) (hc : h.Filling k c)
    (hne : next ≠ other) :
    f.Carries ((h.finish k c (.condBr x next other)).moveTo (some next)) i [other] ∧
      Leads (endOf ((h.finish k c (.condBr x next other)).moveTo (some next)).blocks) i other ∧
      ∃ label, ((h.finish k c (.condBr x next other)).moveTo (some next)).Filling
        next ⟨label, [], none⟩ := by
  obtain ⟨h', hgh, hs₁⟩ := within_of_gives_visitOperand hcond hg
  obtain rfl := Option.mem_unique hh hs₁.frame
  have hemitted := hfg.emits hgh
  obtain ⟨hcarries, hleads, hfilling⟩ := hemitted.jump (e := .condBr x next other)
    (Nat.lt_of_lt_of_le hi hemitted.grows.length) hc (by simp [Term.targets])
      (by simp [Term.targets]) (by simpa using hne)
  exact ⟨hcarries, hleads other (by simp [Term.targets]), hfilling⟩

section Forms

variable {stamp : Stamp} {v : Option Value} {cond body : Option Node} (hf : s.frame = some f)
  (hb : f.Filling i b) (hg : s'.frame = some g)

include hf hb hg

theorem carries_ifThen (hbody : Carried body)
    (hv : Gives (visit (.binary stamp .ifThen cond body)) s v s') : f.Carries g i [] := by
  obtain ⟨f', x, s₁, k, j, c, s₂, h, hf', hcond, hk, hc, hthen, hh, rfl, -⟩ :=
    gives_visit_ifThen.mp hv
  obtain rfl := Option.mem_unique hf hf'
  obtain rfl := Option.some.inj hg
  have hi := hb.lt
  have hstart : f.Carries ((f.addBlock "if.then").addBlock "if.end") i
      [f.blocks.length, f.blocks.length + 1] := by
    simpa using ((Frame.Carries.refl hb).addBlock hb "if.then").addBlock
      (hb.addBlock "if.then") "if.end"
  obtain ⟨hbranch, hleads, label, hthenBlock⟩ := hstart.branch hi rfl hcond hk hc (by omega)
  have hpart := hbody.statement hthen rfl hthenBlock hh
  have hdone : f.Carries h i [f.blocks.length + 1] := hbranch.trans hthenBlock hpart
  have hend : Leads (endOf h.blocks) i (f.blocks.length + 1) := hleads.grow hpart.grows.grow
  have hlt := (hdone.waiting (f.blocks.length + 1) List.mem_cons_self).2.lt
  exact hdone.leave (by omega) ⟨Nat.le_succ _, hlt⟩ hend

/-- The condition is reached from in front and from the body; the block behind the loop is reached
from the condition. -/
theorem carries_while (hbody : Carried body)
    (hv : Gives (visit (.binary stamp .while cond body)) s v s') : f.Carries g i [] := by
  obtain ⟨f', i', b', x, s₁, k, j, c, s₂, h, hf', hloop, hcond, hk, hc, hthen, hh, rfl, -⟩ :=
    gives_visit_while.mp hv
  obtain rfl := Option.mem_unique hf hf'
  obtain rfl := Option.some.inj hg
  have hi := hb.lt
  have hstart : f.Carries f.addLoop i
      [f.blocks.length, f.blocks.length + 1, f.blocks.length + 2] := by
    simpa [Frame.addLoop] using (((Frame.Carries.refl hb).addBlock hb "while.cond").addBlock
      (hb.addBlock "while.cond") "while.body").addBlock
      ((hb.addBlock "while.cond").addBlock "while.body") "while.end"
  obtain ⟨hcondBlock, -, -⟩ := hstart.jump (e := .br f.blocks.length)
    (Nat.lt_of_lt_of_le hi hstart.grows.length) hloop (by simp [Term.targets])
      (by simp [Term.targets]) (by simp)
  obtain ⟨hbranch, hleads, label, hbodyBlock⟩ := hcondBlock.branch hi rfl hcond hk hc (by omega)
  have hpart := hbody.statement hthen rfl hbodyBlock hh
  have hdone : f.Carries h i [f.blocks.length + 2] := hbranch.trans hbodyBlock hpart
  have hend : Leads (endOf h.blocks) i (f.blocks.length + 2) := hleads.grow hpart.grows.grow
  have hlt := (hdone.waiting (f.blocks.length + 2) List.mem_cons_self).2.lt
  exact hdone.leave (by omega) ⟨Nat.le_refl _, by omega⟩ hend

/-- Both branches have to end their blocks, so control is not carried on. -/
theorem carries_ifThenElse {thenBody elseBody : Option Node} (hthen : Carried thenBody)
    (helse : Carried elseBody)
    (hv : Gives (visit (.ternary stamp .ifThenElse cond thenBody elseBody)) s v s') :
    f.Carries g i [] := by
  obtain ⟨f', x, s₁, k, j, c, s₂, h, s₃, l, hf', hcond, hk, hc, hs₂, hh, hopen, hs₃, hl,
      hopen', rfl, -⟩ :=
    gives_visit_ifThenElse.mp hv
  obtain rfl := Option.mem_unique hf hf'
  obtain rfl := Option.some.inj hg
  have hi := hb.lt
  have hstart : f.Carries ((f.addBlock "if.then").addBlock "if.else") i
      [f.blocks.length, f.blocks.length + 1] := by
    simpa using ((Frame.Carries.refl hb).addBlock hb "if.then").addBlock
      (hb.addBlock "if.then") "if.else"
  obtain ⟨hbranch, hleads, label, hthenBlock⟩ := hstart.branch hi rfl hcond hk hc (by omega)
  have hthenPart := hthen.statement hs₂ rfl hthenBlock hh
  have hthenDone : f.Carries h i [f.blocks.length + 1] := hbranch.trans hthenBlock hthenPart
  have hleadsElse : Leads (endOf h.blocks) i (f.blocks.length + 1) :=
    hleads.grow hthenPart.grows.grow
  -- the first body has ended its block, and nothing waits but the block of the second
  have hmoved := hthenDone.moveTo (Nat.lt_of_lt_of_le hi hthenDone.grows.length) hopen hleadsElse
    List.not_mem_nil
  obtain ⟨label', helseBlock⟩ := (hthenDone.waiting _ List.mem_cons_self).2.filling
  have hdone : f.Carries l i [] := hmoved.trans helseBlock (helse.statement hs₃ rfl helseBlock hl)
  exact hdone.stop (Nat.lt_of_lt_of_le hi hdone.grows.length) hopen'

theorem carries_expression {n : Node} {x : Value} (hx : Gives (visit n) s (some x) s') :
    f.Carries g i [] := by
  obtain ⟨g', hemits, rfl⟩ := emits_of_gives_visit n s x s' hx f hf
  obtain rfl := Option.some.inj hg
  exact (Frame.Carries.refl hb).emits hemits

theorem carries_return {value : Option Node} (hv : Gives (visit (.unary stamp .ret value)) s v s') :
    f.Carries g i [] := by
  obtain ⟨s₁, h, k, c, t, hemits, -, hc, ht, rfl⟩ := finish_of_gives_return hv hf
  obtain rfl := Option.some.inj hg
  exact ((Frame.Carries.refl hb).emits hemits).finish hc (by simp [ht])

theorem carries_declares {x : Variable} (hx : s.Declares x s') : f.Carries g i [] := by
  obtain ⟨k, c, hc, rfl⟩ := (State.declares_iff_of_frame hf).mp hx
  obtain rfl := Option.some.inj hg
  exact ((Frame.Carries.refl hb).useName x.name).push (hc.useName _) _

end Forms

/-- The code of a tree carries control on, if it is lowered in an open block. -/
theorem carries_of_gives_visit (t : Node) : Carried (some t) := by
  rintro _ ⟨⟩
  induction t using inside_ind with
  | outside t hnone =>
    intro s v s' f g i b hv hf hb hg
    simp [hnone s v s' hv] at hf
  | expression t ht =>
    intro s v s' f g i b hv hf hb hg
    obtain ⟨u, rfl⟩ := ht.value hv
    exact carries_expression hf hb hg hv
  | block l items ih =>
    intro s v s' f g i b hv hf hb hg
    obtain ⟨-, hitems, -⟩ := gives_visit_block.mp hv
    exact carries_statements (fun n hn t ht => ih t (ht ▸ hn)) hitems hf hb hg
  | ret l value => exact fun s v s' f g i b hv hf hb hg => carries_return hf hb hg hv
  | declaration l form type names hform =>
    intro s v s' f g i b hv hf hb hg
    obtain ⟨x, -, hx⟩ := declares_of_gives_visit hform hv hf
    exact carries_declares hf hb hg hx
  | ifThen l cond body ih => exact fun s v s' f g i b hv hf hb hg => carries_ifThen hf hb hg ih hv
  | loop l cond body ih => exact fun s v s' f g i b hv hf hb hg => carries_while hf hb hg ih hv
  | ifThenElse l cond body body' ih ih' =>
    exact fun s v s' f g i b hv hf hb hg => carries_ifThenElse hf hb hg ih ih' hv

/-! ## Whole bodies -/

theorem carries_storeParams {func : String} {index : Nat}
    (hs : Gives (storeParams func index ps) s u s') (hf : s.frame = some f) (hb : f.Filling i b) :
    ∃ g c, s'.frame = some g ∧ g.Filling i c ∧ f.Carries g i [] := by
  induction ps generalizing s f b index with
  | nil =>
    obtain rfl := gives_storeParams_nil.mp hs
    exact ⟨f, b, hf, hb, .refl hb⟩
  | cons p ps ih =>
    obtain ⟨f', k, c, hf', hc, hrest⟩ := gives_storeParams_cons.mp hs
    obtain rfl := Option.mem_unique hf hf'
    obtain ⟨rfl, rfl⟩ := hb.unique hc
    have hnamed := hb.useName (p.name ++ ".addr")
    have hslot := hnamed.push (.alloca (f.freshName (p.name ++ ".addr")) p.ty 4)
    have hstored := hslot.push (.store (.param index p.ty) (.result f.count (.ptr p.ty)))
    have hfirst := (((Frame.Carries.refl hb).useName (p.name ++ ".addr")).push hnamed
      (.alloca (f.freshName (p.name ++ ".addr")) p.ty 4)).push hslot
      (.store (.param index p.ty) (.result f.count (.ptr p.ty)))
    obtain ⟨g, d, hg, hd, hcarries⟩ := ih hrest rfl hstored
    exact ⟨g, d, hg, hd, hfirst.trans hstored hcarries⟩

/-- Code that starts with a single empty block and has ended its last one. -/
theorem Frame.Carries.sound (hfg : f.Carries g 0 []) (hfirst : f.blocks = [⟨label, [], none⟩])
    (hlabel : IsEntryLabel label) (hopen : g.isOpen = false) : IR.Flow.Sound g.blocks := by
  have hlength : f.blocks.length = 1 := by rw [hfirst, List.length_singleton]
  have hzero : 0 < g.blocks.length := Nat.lt_of_lt_of_le (by omega) hfg.grows.length
  have hreached : ∀ j < g.blocks.length, g.Attended j ∧ Leads (endOf g.blocks) 0 j := by
    intro j hj
    rcases Nat.eq_zero_or_pos j with rfl | hpos
    · exact ⟨hfg.here, .refl⟩
    · exact (hfg.new j (by omega) hj).resolve_left List.not_mem_nil
  refine ⟨?_, ?_, ?_, fun j hj => (hreached j hj).2⟩
  · obtain ⟨c, hc, hgrows⟩ := hfg.grows.grow 0 ⟨label, [], none⟩ (by rw [hfirst]; rfl)
    exact ⟨c, hc, hgrows.label.symm ▸ hlabel⟩
  · intro b hb
    obtain ⟨j, hj⟩ := List.getElem?_of_mem hb
    have hlt := (List.getElem?_eq_some_iff.mp hj).1
    obtain ⟨c, hc, hterm⟩ := (hreached j hlt).1.closed hlt hopen
    obtain rfl := Option.mem_unique hj hc
    exact hterm
  · intro j k hk
    obtain ⟨b, t, hb, ht, hk⟩ := IR.Flow.mem_next_endOf.mp hk
    rcases hfg.targets j b t hb ht with hold | hnew
    · -- the one block of the start has no end
      rw [hfirst, List.getElem?_singleton] at hold
      split at hold
      · obtain rfl := Option.some.inj hold
        cases ht
      · cases hold
    · obtain ⟨hge, hlt⟩ := hnew k hk
      exact ⟨by omega, hlt⟩

/-- The control flow of a body is sound once its end is set. -/
theorem sound_of_lowered {t₁ t₂ : State} {name : String} {items : List (Option Node)}
    (hf : t.frame = some f) (hfirst : f.blocks = [⟨label, [], none⟩]) (hlabel : IsEntryLabel label)
    (hcursor : f.cursor = some 0) (hparams : Gives (storeParams name 0 ps) t () t₁)
    (hitems : Gives (visitStatements items) t₁ () t₂) (hg : t₂.frame = some g) :
    IR.Flow.Sound (g.endWith (.ret none)).blocks := by
  obtain ⟨k, c, hk, hc, hstored⟩ :=
    carries_storeParams hparams hf ⟨hcursor, by rw [hfirst]; rfl, rfl⟩
  have hall : ∀ n ∈ items, Carried n := by
    rintro n - t rfl
    exact carries_of_gives_visit t t rfl
  have hbody := hstored.trans hc (carries_statements hall hitems hk hc hg)
  exact (hbody.endWith (by simp [Term.targets])).sound hfirst hlabel (g.isOpen_endWith _)

end Lowering

end CSubset
