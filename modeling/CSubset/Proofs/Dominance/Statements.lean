import CSubset.Proofs.Dominance.Expressions
import CSubset.Proofs.Simulation.Statements

/-!
# Dominance in statements

A branch or a loop adds blocks, and each of these claims what is there where the statement starts. A
declaration in one of its bodies makes a slot that a path around the body misses, the path that the
condition decides, so it lapses at the end of the body. Thus lowering a statement either extends the
certificate, if all its variables are in force where they are used, or leaves a stray use
(`Settled`); `settledTree` proves it for all statements.
-/

namespace CSubset.Dominance

open Lowering IR Scoping
open Simulation (Bindings)
open Execution (declares? declaredChild passesChild)

variable {claims claims' : Nat → List Nat} {s s' s₁ s₂ : State} {f g h : Frame} {M new : Entries}
  {i k n : Nat} {b : Block} {t : Term} {stamp : Stamp} {body cond node : Option Node}
  {v : Option Value} {decls : Env} {newer : Entries} {ns : List (Option Node)}

/-- The declarations of a body behind its end. -/
def Entries.lapse (M : Entries) : Entries := M.map fun e => { e with inForce := false }

theorem Entries.bindings_lapse (new M : Entries) :
    Entries.bindings (new.lapse ++ M) = Entries.bindings (new ++ M) := by
  simp [Entries.bindings, Entries.lapse, Function.comp_def]

theorem Entries.env_append (hnew : new.env = decls.reverse) (M : Entries) :
    Entries.env (new ++ M) = Env.add M.env decls := by
  rw [Env.add, ← hnew]
  exact List.map_append ..

theorem Entries.env_lapse (hnew : new.env = (entriesChild body).reverse) :
    new.lapse.env = (lapsed (declaredChild false body)).reverse := by
  have hlapse : new.lapse.env = new.env.map fun p => (p.1, false) := by
    simp [Entries.env, Entries.lapse, Function.comp_def]
  rw [hlapse, hnew, ← map_fst_entriesChild, lapsed, List.map_map, List.map_reverse]
  rfl

/-! ## From block to block -/

theorem StrayIn.grow (hstray : StrayIn s) (hf : s.frame = some f) (hg : s'.frame = some g)
    (hgrow : Grow f.blocks g.blocks) : StrayIn s' := by
  obtain ⟨f', hf', hstray⟩ := hstray
  obtain rfl := Option.mem_unique hf hf'
  exact ⟨g, hg, hstray.grow hgrow⟩

namespace Standing

theorem isOpen (hs : Standing claims M s f) : f.isOpen = true := by
  obtain ⟨passed, hpath⟩ := hs.reached
  exact hpath.isOpen

theorem congr (hs : Standing claims M s f) (hsame : ∀ j < f.blocks.length, claims' j = claims j) :
    Standing claims' M s f := by
  obtain ⟨i, b, hb⟩ := Frame.isOpen_iff.mp hs.isOpen
  refine ⟨hs.tracks, hs.certificate.congr (Nat.zero_lt_of_lt hb.lt) hsame, ?_,
    hs.reached, hs.missed⟩
  exact fun e he hforce => (Frame.here_congr hsame).mpr (hs.here e he hforce)

theorem addBlock (hs : Standing claims M s f) (base : String) :
    Standing claims M (s.withFrame (f.addBlock base)) (f.addBlock base) := by
  obtain ⟨i, b, hb⟩ := Frame.isOpen_iff.mp hs.isOpen
  refine ⟨?_, hs.certificate.addBlock base, ?_, ?_, ?_⟩
  · exact hs.tracks.extend (State.withFrame_frame s _) rfl (Frame.extends_addBlock f base)
  · exact fun e he hforce => (Frame.here_addBlock hb).mpr (hs.here e he hforce)
  · obtain ⟨passed, hpath⟩ := hs.reached
    exact ⟨passed, hpath.addBlock base⟩
  · intro e he hlapsed
    obtain ⟨hlt, passed, hpath, hmiss⟩ := hs.missed e he hlapsed
    exact ⟨hlt, passed, hpath.addBlock base, hmiss⟩

/-- From block `i` control gets to block `k`. When the body has grown to `h` and goes on there, the
declarations `new` that were made in between have lapsed: the path that comes from block `i` has
missed them. -/
theorem enter (hs : Standing claims M s g) (hb : g.Filling i b) (hk : k ∈ t.targets)
    (hgrow : Grow (g.finish i b t).blocks h.blocks) (hcount : g.count ≤ h.count)
    (hwaits : h.Waits k) (htracks : (Entries.bindings (new ++ M)).Tracks (s'.withFrame h) h)
    (hcert : Certificate claims' h.blocks)
    (hclaims : ∀ e ∈ M, e.inForce = true → e.slot ∈ claims' k)
    (hnew : ∀ e ∈ new, g.count ≤ e.slot) :
    Standing claims' (new.lapse ++ M) (s'.withFrame (h.moveTo (some k))) (h.moveTo (some k)) := by
  -- a path to the end of block `i` leads on to block `k`
  have hpath : ∀ {passed}, g.Reached passed → (h.moveTo (some k)).Reached passed := fun hpassed =>
    hwaits.reached ((hpassed.finish hb hk).grow hgrow)
  refine ⟨?_, hcert, ?_, ?_, ?_⟩
  · rw [Entries.bindings_lapse]
    exact htracks.moveTo (some k)
  · intro e he hforce
    rcases List.mem_append.mp he with he | he
    · obtain ⟨e', -, rfl⟩ := List.mem_map.mp he
      cases hforce
    · exact hwaits.here_iff.mpr (hclaims e he hforce)
  · obtain ⟨passed, hpassed⟩ := hs.reached
    exact ⟨passed, hpath hpassed⟩
  · intro e he hlapsed
    rcases List.mem_append.mp he with he | he
    · obtain ⟨e', he', rfl⟩ := List.mem_map.mp he
      have hmem : (e'.name, some e'.slot) ∈ Entries.bindings (new ++ M) :=
        List.mem_map.mpr ⟨e', List.mem_append_left M he', rfl⟩
      obtain ⟨j, l, name, align, hslot⟩ := htracks.slots _ _ hmem
      obtain ⟨passed, hpassed⟩ := hs.reached
      refine ⟨htracks.numbered.below j l _ hslot, passed, hpath hpassed, ?_⟩
      -- the slot is newer than all that is passed on the way
      intro hpass
      exact absurd (hpassed.below hs.tracks.numbered _ hpass) (Nat.not_lt.mpr (hnew e' he'))
    · obtain ⟨hlt, passed, hpassed, hmiss⟩ := hs.missed e he hlapsed
      exact ⟨Nat.lt_of_lt_of_le hlt hcount, passed, hpath hpassed, hmiss⟩

end Standing

/-! ## What comes of a statement -/

/-- Lowering a statement from frame `f` on has led to `g`, with the declarations `new`: the
certificate goes on with claims for the new blocks, and what was there is there if control
passes. -/
structure Settles (claims claims' : Nat → List Nat) (M new : Entries) (s' : State) (f g : Frame) :
    Prop where
  count : f.count ≤ g.count
  length : f.blocks.length ≤ g.blocks.length
  slots : ∀ e ∈ new, f.count ≤ e.slot
  same : ∀ j < f.blocks.length, claims' j = claims j
  tracks : (Entries.bindings (new ++ M)).Tracks s' g
  certificate : Certificate claims' g.blocks
  standing : g.isOpen = true → Standing claims' (new ++ M) s' g
  keeps : g.isOpen = true → ∀ n, f.Here claims n → g.Here claims' n

/-- What comes of lowering a statement that makes the declarations `decls`: if its variables are in
force the certificate goes on, and else there is a stray use. -/
def Settled (ok : Bool) (decls : Env) (claims : Nat → List Nat) (M : Entries) (s' : State)
    (f : Frame) : Prop :=
  (ok = true ∧ ∃ claims' new g, new.env = decls.reverse ∧ Settles claims claims' M new s' f g) ∨
    (ok = false ∧ StrayIn s')

/-- What the proof about statements needs to know of a child. -/
def SettledChild (n : Option Node) : Prop :=
  ∀ s s' f claims M, Gives (visitStatement n) s () s' → Standing claims M s f →
    Settled (childInForce M.env n) (entriesChild n) claims M s' f

/-- A statement that adds nothing but instructions to the open block. -/
theorem Settled.plain (hs : Standing claims M s' g) (hfg : f.Emits g) :
    Settled true [] claims M s' f :=
  .inl ⟨rfl, claims, [], g, rfl, hfg.toExtends.count,
    hfg.toExtends.length, by simp, fun _ _ => rfl, hs.tracks, hs.certificate, fun _ => hs,
    fun _ _ hn => here_emits hn hfg⟩

/-- A statement that ends the open block and leaves the function. -/
theorem Settled.closed (hs : Standing claims M s g) (hfg : f.Emits g) (hb : g.Filling i b)
    {value : Option Value} (huses : ∀ n ∈ (Term.ret value).uses, g.Here claims n) :
    Settled true [] claims M (s.withFrame (g.finish i b (.ret value))) f := by
  have hclosed : ¬(g.finish i b (.ret value)).isOpen = true := by simp [hb.isOpen_finish]
  have hextends := hfg.toExtends.trans (Frame.extends_finish hb (.ret value))
  refine .inl
    ⟨rfl, claims, [], _, rfl, hextends.count,
    hextends.length, by simp, fun _ _ => rfl, ?_, ?_, fun hopen => absurd hopen hclosed,
    fun hopen => absurd hopen hclosed⟩
  · exact hs.tracks.extend (State.withFrame_frame s _) rfl (Frame.extends_finish hb _)
  · exact hs.certificate.finish hb huses fun j hj => by cases hj

theorem settled_return {value : Option Node}
    (hv : Gives (visit (.unary stamp .ret value)) s v s') (hs : Standing claims M s f) :
    Settled (operandInForce M.env value) [] claims M s' f := by
  cases value with
  | none =>
    obtain ⟨-, hclose, -⟩ := gives_visit_return_none.mp hv
    obtain ⟨f', i, b, hf', hb, rfl⟩ := gives_close.mp hclose
    obtain rfl := Option.mem_unique hs.tracks.frame hf'
    exact .closed hs .refl hb fun n hn => by cases hn
  | some value =>
    obtain ⟨f', x, s₁, hf', -, hx, hclose, -⟩ := gives_visit_return_some.mp hv
    obtain ⟨g, i, b, hg, hb, rfl⟩ := gives_close.mp hclose
    rcases judged_operand (fun t _ => judgedTree t) hx hs with ⟨hok, g', hfg, hstanding,
      hxHas⟩ | ⟨hbad, hstray⟩
    · obtain rfl := Option.mem_unique hg hstanding.tracks.frame
      rw [hok]
      refine .closed hstanding hfg hb fun n hn => hxHas n ?_
      simpa [Term.uses, Term.operands] using hn
    · exact .inr
        ⟨hbad, hstray.grow hg (State.withFrame_frame s₁ _) (Frame.extends_finish hb _).grow⟩

/-- A slot is made for a variable, which is in force from here on. -/
theorem Standing.declare (hs : Standing claims M s f) (hb : f.Filling i b) {x base name : String}
    {align : Nat} (hframe : s'.frame = some ((f.useName base).push i b (.alloca name .i32 align)))
    (hsymbols : s'.symbols = (x, .var (.result f.count (.ptr .i32)) (some f.func)) :: s.symbols) :
    Standing claims (⟨x, f.count, true⟩ :: M) s'
      ((f.useName base).push i b (.alloca name .i32 align)) := by
  -- taking a name changes nothing that a path could notice
  have hb' := hb.useName base
  have hpath : ∀ {passed}, f.Reached passed → (f.useName base).Reached passed := fun hpassed =>
    ⟨i, b, hb', hpassed.path hb⟩
  refine ⟨hs.tracks.declare hb (.refl _) hframe hsymbols, ?_, ?_, ?_, ?_⟩
  · exact Certificate.push (f := f.useName base) hs.certificate hb' fun n hn => by cases hn
  · intro e he hforce
    rcases List.mem_cons.mp he with rfl | he
    · exact hb'.here_push _
    · exact Frame.Here.push ⟨i, b, hb', (hs.here e he hforce).available hb⟩ hb' _
  · obtain ⟨passed, hpassed⟩ := hs.reached
    exact ⟨_, (hpath hpassed).push hb' _⟩
  · intro e he hlapsed
    rcases List.mem_cons.mp he with rfl | he
    · cases hlapsed
    · obtain ⟨hlt, passed, hpassed, hmiss⟩ := hs.missed e he hlapsed
      have hmissed : (f.useName base).Missed e.slot := ⟨hlt, passed, hpath hpassed, hmiss⟩
      exact hmissed.push hb' _

theorem settled_declaration {x : Variable} (hx : s.Declares x s') (hs : Standing claims M s f) :
    Settled true [(x.name, true)] claims M s' f := by
  obtain ⟨i, b, hb, rfl, hwithin⟩ := hx.within hs.tracks.frame
  have hdeclared : Standing claims (⟨x.name, f.count, true⟩ :: M) (s.declareLocal x f i b) _ :=
    hs.declare hb rfl rfl
  have hb' := hb.useName x.name
  refine .inl ⟨rfl, claims, [⟨x.name, f.count, true⟩], _, rfl, hwithin.grows.count,
    hwithin.grows.length, by simp, fun _ _ => rfl, hdeclared.tracks, hdeclared.certificate,
    fun _ => hdeclared, ?_⟩
  exact fun _ n hn => Frame.Here.push ⟨i, b, hb', hn.available hb⟩ hb' _

/-! ## Sequences -/

/-- What two statements declare, one after the other, is in force behind both. -/
theorem Settles.trans (h₁ : Settles claims claims' M new s₁ f g) (hopen : g.isOpen = true)
    {claims'' : Nat → List Nat} (h₂ : Settles claims' claims'' (new ++ M) newer s' g h) :
    Settles claims claims'' M (newer ++ new) s' f h where
  count := Nat.le_trans h₁.count h₂.count
  length := Nat.le_trans h₁.length h₂.length
  slots e he := by
    rcases List.mem_append.mp he with he | he
    · exact Nat.le_trans h₁.count (h₂.slots e he)
    · exact h₁.slots e he
  same j hj := (h₂.same j (Nat.lt_of_lt_of_le hj h₁.length)).trans (h₁.same j hj)
  tracks := by
    rw [List.append_assoc]
    exact h₂.tracks
  certificate := h₂.certificate
  standing hopen' := by
    rw [List.append_assoc]
    exact h₂.standing hopen'
  keeps hopen' n hn := h₂.keeps hopen' n (h₁.keeps hopen n hn)

/-- Control gets to the end of a statement if the block behind it is open. -/
theorem isOpen_of_gives_visitStatement (hnode : Gives (visitStatement node) s () s')
    (hs : Standing claims M s f) (hg : s'.frame = some g) : g.isOpen = passesChild node := by
  obtain ⟨_, g', -, hB, hpass, -⟩ :=
    Simulation.simulated_of (fun t _ => Simulation.simulatedTree false t) s s' f _ hnode
      hs.tracks hs.isOpen
  obtain rfl := Option.mem_unique hg hB.frame
  exact hpass

/-- Statements behind the end of the open block are left out. -/
theorem settled_of_not_isOpen (hns : Gives (visitStatements ns) s₁ () s')
    (hsettles : Settles claims claims' M new s₁ f g) (hclosed : g.isOpen = false) :
    Settles claims claims' M new s' f g := by
  have hsame : s'.frame = some g ∧ s'.symbols = s₁.symbols := by
    cases ns with
    | nil =>
      obtain rfl := gives_visitStatements_nil.mp hns
      exact ⟨hsettles.tracks.frame, rfl⟩
    | cons n ns =>
      rcases gives_visitStatements_cons.mp hns with ⟨hopen, -⟩ | ⟨-, rfl⟩
      · simp [hsettles.tracks.frame, hclosed] at hopen
      · exact ⟨hsettles.tracks.frame, rfl⟩
  have hnot : ¬g.isOpen = true := by simp [hclosed]
  exact { hsettles with
    tracks := hsettles.tracks.extend hsame.1 hsame.2 (.refl g)
    standing := fun hopen => absurd hopen hnot }

theorem settled_statements (hnodes : ∀ n ∈ ns, SettledChild n)
    (hns : Gives (visitStatements ns) s () s') (hs : Standing claims M s f) :
    Settled (itemsInForce M.env ns) (entriesItems ns) claims M s' f := by
  induction ns generalizing s f claims M with
  | nil =>
    obtain rfl := gives_visitStatements_nil.mp hns
    exact .plain hs .refl
  | cons n ns ih =>
    obtain ⟨s₁, hn, hrest⟩ : ∃ s₁, Gives (visitStatement n) s () s₁ ∧
        Gives (visitStatements ns) s₁ () s' := by
      rcases gives_visitStatements_cons.mp hns with ⟨-, hboth⟩ | ⟨hclosed, -⟩
      · exact hboth
      · simp [hs.tracks.frame, hs.isOpen] at hclosed
    rcases hnodes n List.mem_cons_self s s₁ f claims M hn hs with ⟨hok, claims₁, new, g, hnew,
      hsettles⟩ | ⟨hbad, hstray⟩
    · have hpass := isOpen_of_gives_visitStatement hn hs hsettles.tracks.frame
      cases hopen : g.isOpen with
      | true =>
        have hrestSettled :=
          ih (fun m hm => hnodes m (List.mem_cons_of_mem _ hm)) hrest (hsettles.standing hopen)
        rw [Entries.env_append hnew] at hrestSettled
        have hpass : passesChild n = true := hpass.symm.trans hopen
        rcases hrestSettled with ⟨hok', claims₂, newer, h, hnewer, hsettles'⟩ | ⟨hbad, hstray⟩
        · refine .inl ⟨by simp [itemsInForce, hok, hok'], claims₂, newer ++ new, h, ?_,
            hsettles.trans hopen hsettles'⟩
          rw [entriesItems, hpass, if_pos rfl, List.reverse_append, ← hnew, ← hnewer]
          exact List.map_append ..
        · exact .inr ⟨by simp [itemsInForce, hpass, hbad], hstray⟩
      | false =>
        have hpass : passesChild n = false := hpass.symm.trans hopen
        refine .inl ⟨by simp [itemsInForce, hok, hpass], claims₁, new, g, ?_,
          settled_of_not_isOpen hrest hsettles hopen⟩
        simp [entriesItems, hpass, hnew]
    · refine .inr ⟨by simp [itemsInForce, hbad], hstray.within fun f' hf' => ?_⟩
      exact within_of_gives_visitStatements (fun _ _ t _ => within_of_gives_visit t t rfl) hrest hf'

/-! ## Branches and loops -/

/-- A statement that has first added blocks: they claim what was there. -/
theorem Settled.before {ok : Bool} (hg : Settled ok decls claims' M s' g) (hfg : f.Extends g)
    (hsame : ∀ j < f.blocks.length, claims' j = claims j)
    (hhere : ∀ n, f.Here claims n → g.Here claims' n) : Settled ok decls claims M s' f := by
  rcases hg with ⟨hok, claims'', new, h, hnew, hsettles⟩ | hbad
  · refine .inl ⟨hok, claims'', new, h, hnew, Nat.le_trans hfg.count hsettles.count,
      Nat.le_trans hfg.length hsettles.length, ?_, ?_, hsettles.tracks, hsettles.certificate,
      hsettles.standing, ?_⟩
    · exact fun e he => Nat.le_trans hfg.count (hsettles.slots e he)
    · exact fun j hj => (hsettles.same j (Nat.lt_of_lt_of_le hj hfg.length)).trans (hsame j hj)
    · exact fun hopen n hn => hsettles.keeps hopen n (hhere n hn)
  · exact .inr hbad

/-- A condition that decides between block `yes` with a body, from the end of which control goes to
block `back`, and block `no`, where the code goes on. The three blocks claim what is there at the
condition. -/
theorem settled_branch {c : Value} {yes no back : Nat} (hbody : SettledChild body)
    (hs : Standing claims M s f) (hc : Gives (visitOperand .i1 cond) s c s₁)
    (hg : s₁.frame = some g) (hb : g.Filling i b)
    (hstmt : Gives (visitStatement body)
      (s₁.withFrame ((g.finish i b (.condBr c yes no)).moveTo (some yes))) () s₂)
    (hh : s₂.frame = some h) (hyes : f.Waits yes) (hno : f.Waits no) (hne : yes ≠ no)
    (hclaims : ∀ j ∈ [yes, no, back], j < f.blocks.length ∧ ∀ n, n ∈ claims j ↔ f.Here claims n) :
    Settled (operandInForce M.env cond && childInForce M.env body)
      (lapsed (declaredChild false body)) claims M
      (s₂.withFrame ((h.endWith (.br back)).moveTo (some no))) f := by
  have hwithin := within_of_gives_visitStatement hstmt (State.withFrame_frame s₁ _) hh
  have hfinish := Frame.extends_finish hb (.condBr c yes no)
  have hend := Frame.extends_endWith h (.br back)
  have hgrow : Grow (g.finish i b (.condBr c yes no)).blocks (h.endWith (.br back)).blocks :=
    hwithin.grows.grow.trans hend.grow
  obtain ⟨hyesLt, hyesClaims⟩ := hclaims yes (by simp)
  obtain ⟨hnoLt, hnoClaims⟩ := hclaims no (by simp)
  obtain ⟨hbackLt, hbackClaims⟩ := hclaims back (by simp)
  rcases judged_operand (fun t _ => judgedTree t) hc hs with ⟨hok, g', hfg, hstanding,
    hcHas⟩ | ⟨hbad, hstray⟩
  case inr =>
    exact .inr
      ⟨by simp [hbad], hstray.grow hg (State.withFrame_frame s₂ _) (hfinish.grow.trans hgrow)⟩
  obtain rfl := Option.mem_unique hg hstanding.tracks.frame
  have hextends := hfg.toExtends.trans hfinish
  have hcert : Certificate claims (g.finish i b (.condBr c yes no)).blocks := by
    refine hstanding.certificate.finish hb (fun n hn => hcHas n ?_) fun j hj => ?_
    · simpa [Term.uses, Term.operands] using hn
    · obtain ⟨hlt, hj⟩ := hclaims j (List.mem_append_left [back] hj)
      exact ⟨Nat.lt_of_lt_of_le hlt hfg.toExtends.length, fun n hn => here_emits ((hj n).mp hn) hfg⟩
  -- into the body
  have hyesWaits := hyes.extend hextends
  have hstart : Standing claims (Entries.lapse [] ++ M)
      (s₁.withFrame ((g.finish i b (.condBr c yes no)).moveTo (some yes))) _ :=
    hstanding.enter hb List.mem_cons_self (.refl _) hfinish.count hyesWaits
      (hstanding.tracks.extend (State.withFrame_frame s₁ _) rfl hfinish) hcert
      (fun e he hforce => (hyesClaims _).mpr (hs.here e he hforce)) (by simp)
  rcases hbody _ _ _ _ _ hstmt hstart with ⟨hok', claims', new, h', hnew, hsettles⟩ | ⟨hbad, hstray⟩
  case inr =>
    have hbad : childInForce M.env body = false := hbad
    exact .inr ⟨by simp [hbad], hstray.grow hh (State.withFrame_frame s₂ _) hend.grow⟩
  obtain rfl := Option.mem_unique hh hsettles.tracks.frame
  have hsame : ∀ j < f.blocks.length, claims' j = claims j := fun j hj =>
    hsettles.same j (Nat.lt_of_lt_of_le hj hextends.length)
  -- out of the body
  have hcertEnd : Certificate claims' (h.endWith (.br back)).blocks := by
    cases hopen : h.isOpen with
    | false =>
      rw [Frame.endWith_of_not_isOpen (by simp [hopen])]
      exact hsettles.certificate
    | true =>
      obtain ⟨j, d, hd⟩ := Frame.isOpen_iff.mp hopen
      rw [Frame.endWith_of_filling hd]
      refine hsettles.certificate.finish hd (fun n hn => by cases hn) fun k hk => ?_
      obtain rfl := List.mem_singleton.mp hk
      refine ⟨Nat.lt_of_lt_of_le hbackLt (Nat.le_trans hextends.length hsettles.length),
        fun n hn => ?_⟩
      rw [hsame k hbackLt, hbackClaims, ← hyesClaims] at hn
      exact hsettles.keeps hopen n (hyesWaits.here_iff.mpr hn)
  -- behind the statement, where control also comes from the condition
  have hnoWaits :=
    (((hno.extend hextends).moveTo (by simpa using hne)).extend hwithin.grows).extend hend
  have hclaimsNo : ∀ n, n ∈ claims' no ↔ f.Here claims n :=
    fun n => by rw [hsame no hnoLt, hnoClaims]
  have hcount : g.count ≤ (h.endWith (.br back)).count := Nat.le_trans hsettles.count hend.count
  have hfinal : Standing claims' (new.lapse ++ M)
      (s₂.withFrame ((h.endWith (.br back)).moveTo (some no))) _ :=
    hstanding.enter hb (List.mem_cons_of_mem _ List.mem_cons_self) hgrow hcount hnoWaits
      (hsettles.tracks.extend (State.withFrame_frame s₂ _) rfl hend) hcertEnd
      (fun e he hforce => (hclaimsNo _).mpr (hs.here e he hforce)) hsettles.slots
  refine .inl ⟨?_, claims', new.lapse, (h.endWith (.br back)).moveTo (some no),
    Entries.env_lapse hnew, Nat.le_trans hfg.toExtends.count hcount, Nat.le_trans hextends.length
    (Nat.le_trans hsettles.length hend.length), ?_, hsame, hfinal.tracks, hfinal.certificate,
    fun _ => hfinal, ?_⟩
  · have hok' : childInForce M.env body = true := hok'
    simp [hok, hok']
  · intro e he
    obtain ⟨e', he', rfl⟩ := List.mem_map.mp he
    exact Nat.le_trans hfg.toExtends.count (hsettles.slots e' he')
  · exact fun _ n hn => hnoWaits.here_iff.mpr ((hclaimsNo n).mpr hn)

/-- Two blocks are added that claim what is there. -/
theorem Standing.addPair (hs : Standing claims M s f) (x y : String) :
    Standing (f.inherit claims) M (s.withFrame ((f.addBlock x).addBlock y))
      ((f.addBlock x).addBlock y) ∧
      ∀ n, ((f.addBlock x).addBlock y).Here (f.inherit claims) n ↔ f.Here claims n := by
  obtain ⟨i, b, hb⟩ := Frame.isOpen_iff.mp hs.isOpen
  refine ⟨((hs.congr Frame.inherit_of_lt).addBlock x).addBlock y, fun n => ?_⟩
  rw [Frame.here_addBlock (hb.addBlock x), Frame.here_addBlock hb,
    Frame.here_congr Frame.inherit_of_lt]

/-- The two blocks, of which the second is also where the code goes on, claim what is there. -/
theorem Standing.claims_pair (hs : Standing claims M s f) (x y : String) :
    ∀ j ∈ [f.blocks.length, f.blocks.length + 1, f.blocks.length + 1],
      j < ((f.addBlock x).addBlock y).blocks.length ∧
        ∀ n, n ∈ f.inherit claims j ↔ ((f.addBlock x).addBlock y).Here (f.inherit claims) n := by
  intro j hj
  obtain ⟨hle, hlt⟩ : f.blocks.length ≤ j ∧ j < f.blocks.length + 2 := by
    simp only [List.mem_cons, List.not_mem_nil, or_false] at hj
    omega
  refine ⟨by rwa [Frame.length_addBlock, Frame.length_addBlock], fun n => ?_⟩
  rw [(hs.addPair x y).2, Frame.mem_inherit hs.isOpen hle]

theorem settled_ifThen (hbody : SettledChild body)
    (hv : Gives (visit (.binary stamp .ifThen cond body)) s v s') (hs : Standing claims M s f) :
    Settled (operandInForce M.env cond && childInForce M.env body)
      (lapsed (declaredChild false body)) claims M s' f := by
  obtain ⟨f', c, s₁, g, i, b, s₂, h, hf', hc, hg, hb, hstmt, hh, rfl, -⟩ := gives_visit_ifThen.mp hv
  obtain rfl := Option.mem_unique hs.tracks.frame hf'
  obtain ⟨j, d, hd⟩ := Frame.isOpen_iff.mp hs.isOpen
  obtain ⟨hthen, hend⟩ := hd.waits_pair "if.then" "if.end"
  obtain ⟨hstanding, hhere⟩ := hs.addPair "if.then" "if.end"
  have hextends := (Frame.extends_addBlock f "if.then").trans (Frame.extends_addBlock _ "if.end")
  exact (settled_branch hbody hstanding hc hg hb hstmt hh hthen hend (by simp)
    (hs.claims_pair _ _)).before hextends
    Frame.inherit_of_lt fun n => (hhere n).mpr

/-- The body may not be run, so what it declares lapses behind the loop. -/
theorem settled_while (hbody : SettledChild body)
    (hv : Gives (visit (.binary stamp .while cond body)) s v s') (hs : Standing claims M s f) :
    Settled (operandInForce M.env cond && childInForce M.env body)
      (lapsed (declaredChild false body)) claims M s' f := by
  obtain ⟨f', i, b, c, s₁, g, j, d, s₂, h, hf', hb, hc, hg, hd, hstmt, hh, rfl, -⟩ :=
    gives_visit_while.mp hv
  obtain rfl := Option.mem_unique hs.tracks.frame hf'
  obtain ⟨k, e, he⟩ := Frame.isOpen_iff.mp hs.isOpen
  obtain ⟨-, hcond, hbodyWaits, hend⟩ := he.waits_addLoop
  obtain ⟨hpair, hherePair⟩ := hs.addPair "while.cond" "while.body"
  have hloop : Standing (f.inherit claims) M (s.withFrame f.addLoop) f.addLoop :=
    hpair.addBlock "while.end"
  have hhere : ∀ n, f.addLoop.Here (f.inherit claims) n ↔ f.Here claims n := by
    intro n
    rw [← hherePair]
    exact Frame.here_addBlock ((he.addBlock "while.cond").addBlock "while.body")
  have hmem : ∀ {j n}, f.blocks.length ≤ j → (n ∈ f.inherit claims j ↔ f.Here claims n) :=
    Frame.mem_inherit hs.isOpen
  have hlength : f.addLoop.blocks.length = f.blocks.length + 3 := by simp [Frame.addLoop]
  have hfinish := Frame.extends_finish hb (.br f.blocks.length)
  -- into the block of the condition, which is also where the body goes back to
  have hcert : Certificate (f.inherit claims)
      (f.addLoop.finish i b (.br f.blocks.length)).blocks := by
    refine hloop.certificate.finish hb (fun n hn => by cases hn) fun j hj => ?_
    obtain rfl := List.mem_singleton.mp hj
    exact ⟨by omega, fun n hn => (hhere n).mpr ((hmem (Nat.le_refl _)).mp hn)⟩
  have hcondWaits := hcond.extend hfinish
  have hstart : Standing (f.inherit claims) (Entries.lapse [] ++ M)
      (s.withFrame ((f.addLoop.finish i b (.br f.blocks.length)).moveTo (some f.blocks.length)))
      _ :=
    hloop.enter hb List.mem_cons_self (.refl _) hfinish.count hcondWaits
      (hloop.tracks.extend (State.withFrame_frame s _) rfl hfinish) hcert
      (fun e he hforce => (hmem (Nat.le_refl _)).mpr (hs.here e he hforce)) (by simp)
  have hclaims : ∀ j ∈ [f.blocks.length + 1, f.blocks.length + 2, f.blocks.length],
      j < (f.addLoop.finish i b (.br f.blocks.length)).blocks.length ∧ ∀ n, n ∈ f.inherit claims j ↔
      ((f.addLoop.finish i b (.br f.blocks.length)).moveTo (some f.blocks.length)).Here
      (f.inherit claims) n := by
    intro j hj
    obtain ⟨hle, hlt⟩ : f.blocks.length ≤ j ∧ j < f.addLoop.blocks.length := by
      simp only [List.mem_cons, List.not_mem_nil, or_false] at hj
      omega
    refine ⟨Nat.lt_of_lt_of_le hlt hfinish.length, fun n => ?_⟩
    rw [hcondWaits.here_iff, hmem hle, hmem (Nat.le_refl _)]
  have hextends : f.Extends f.addLoop := ((Frame.extends_addBlock f "while.cond").trans
    (Frame.extends_addBlock _ "while.body")).trans (Frame.extends_addBlock _ "while.end")
  have hmoved := (hextends.trans hfinish).moveTo (c := some f.blocks.length) (by simp)
  refine (settled_branch hbody hstart hc hg hd hstmt hh
    ((hbodyWaits.extend hfinish).moveTo (by simp)) ((hend.extend hfinish).moveTo (by simp))
    (by simp) hclaims).before hmoved Frame.inherit_of_lt fun n hn => ?_
  exact hcondWaits.here_iff.mpr ((hmem (Nat.le_refl _)).mpr hn)

/-- Behind both branches of a conditional control goes nowhere. -/
theorem Settles.leave (hsettles : Settles claims claims' M (newer ++ new) s' f g) :
    Settles claims claims' M (newer.lapse ++ new) (s'.withFrame (g.moveTo none)) f
      (g.moveTo none) where
  count := hsettles.count
  length := hsettles.length
  slots e he := by
    rcases List.mem_append.mp he with he | he
    · obtain ⟨e', he', rfl⟩ := List.mem_map.mp he
      exact hsettles.slots e' (List.mem_append_left _ he')
    · exact hsettles.slots e (List.mem_append_right _ he)
  same := hsettles.same
  tracks := by
    rw [List.append_assoc, Entries.bindings_lapse, ← List.append_assoc]
    exact hsettles.tracks.moveTo none
  certificate := hsettles.certificate
  standing hopen := by cases hopen
  keeps hopen := by cases hopen

theorem settled_ifThenElse {thenBody elseBody : Option Node} (hthenBody : SettledChild thenBody)
    (helseBody : SettledChild elseBody)
    (hv : Gives (visit (.ternary stamp .ifThenElse cond thenBody elseBody)) s v s')
    (hs : Standing claims M s f) :
    Settled (inForce M.env (.ternary stamp .ifThenElse cond thenBody elseBody))
      (lapsed (declaredChild false thenBody ++ declaredChild false elseBody)) claims M s' f := by
  obtain ⟨f', c, s₁, g, i, b, s₂, h, s₃, k, hf', hc, hg, hb, hthen, hh, hclosed, helse,
      hk, -, rfl, -⟩ :=
    gives_visit_ifThenElse.mp hv
  obtain rfl := Option.mem_unique hs.tracks.frame hf'
  obtain ⟨j, d, hd⟩ := Frame.isOpen_iff.mp hs.isOpen
  obtain ⟨hthenWaits, helseWaits⟩ := hd.waits_pair "if.then" "if.else"
  obtain ⟨hstanding, hhere⟩ := hs.addPair "if.then" "if.else"
  have hextends := (Frame.extends_addBlock f "if.then").trans (Frame.extends_addBlock _ "if.else")
  -- the then-branch does not get to its end, so the code goes on with the else-branch
  have hthenSettled :=
    (settled_branch hthenBody hstanding hc hg hb hthen hh hthenWaits helseWaits (by simp)
      (hs.claims_pair _ _)).before hextends Frame.inherit_of_lt fun n => (hhere n).mpr
  rw [Frame.endWith_of_not_isOpen (by simp [hclosed])] at hthenSettled
  have hwithin := within_of_gives_visitStatement helse (State.withFrame_frame s₂ _) hk
  rcases hthenSettled with ⟨hok, claims₁, new, g', hnew, hsettles⟩ | ⟨hbad, hstray⟩
  case inr =>
    refine .inr ⟨by simp [inForce, hbad],
      hstray.grow (State.withFrame_frame s₂ _) (State.withFrame_frame s₃ _) ?_⟩
    exact hwithin.grows.grow
  obtain rfl : h.moveTo _ = g' := Option.some.inj hsettles.tracks.frame
  obtain ⟨-, hwaits⟩ :=
    Simulation.waits_of_condition hd hc hg hb (.condBr c f.blocks.length (f.blocks.length + 1))
  have hthenWithin := within_of_gives_visitStatement hthen (State.withFrame_frame s₁ _) hh
  have hopen := ((hwaits.moveTo (by simp)).extend hthenWithin.grows).isOpen
  rcases helseBody _ _ _ _ _ helse (hsettles.standing hopen) with
    ⟨hok', claims₂, newer, k', hnewer, hsettles'⟩ | ⟨hbad, hstray⟩
  · obtain rfl := Option.mem_unique hk hsettles'.tracks.frame
    rw [Entries.env_append hnew] at hok'
    refine .inl ⟨by simp [inForce, hok, hok'], claims₂, newer.lapse ++ new, _, ?_,
      (hsettles.trans hopen hsettles').leave⟩
    rw [lapsed, List.map_append, List.reverse_append, ← lapsed, ← lapsed,
      ← Entries.env_lapse hnewer, ← hnew]
    exact List.map_append ..
  · rw [Entries.env_append hnew] at hbad
    exact .inr ⟨by simp [inForce, hbad], hstray.grow hk (State.withFrame_frame s₃ _) (.refl _)⟩

/-! ## All statements -/

/-- Lowering a statement is settled by its variables. -/
def SettledTree (t : Node) : Prop :=
  ∀ s v s' f claims M, Gives (visit t) s v s' → Standing claims M s f →
    Settled (inForce M.env t) (entries t) claims M s' f

theorem settledChild_of (hnode : ∀ t, node = some t → SettledTree t) : SettledChild node := by
  intro s s' f claims M hgives hs
  cases node with
  | none =>
    obtain rfl : s' = s := by simpa [visitStatement] using hgives
    exact .plain hs .refl
  | some t =>
    obtain ⟨v, hv⟩ : ∃ v, Gives (visit t) s v s' := by simpa [visitStatement] using hgives
    exact hnode t rfl s v s' f claims M hv hs

theorem settled_expression {t : Node} {u : Value} (hu : Gives (visit t) s (some u) s')
    (hs : Standing claims M s f) (ht : ∀ l form, t ≠ .leaf l form) :
    Settled (inForce M.env t) [] claims M s' f := by
  rcases judgedTree t s u s' f claims M hu hs ht with ⟨hok, g, hfg, hstanding, -⟩ | hbad
  · rw [hok]
    exact .plain hstanding hfg
  · exact .inr hbad

theorem entries_binary {form : BinaryForm} {left right : Option Node}
    (hform : form.isStatement = false) : entries (.binary stamp form left right) = [] := by
  cases form <;> first | rfl | cases hform

/-- By induction on the statement. -/
theorem settledTree (t : Node) : SettledTree t := by
  induction t using inside_ind with
  | outside t hnone =>
    intro s v s' f claims M hv hs
    cases hs.tracks.frame.symm.trans (hnone s v s' hv)
  | expression t ht =>
    intro s v s' f claims M hv hs
    obtain ⟨u, rfl⟩ := ht.value hv
    cases ht with
    | leaf =>
      -- nothing is lowered for a name or a number by itself
      obtain rfl : s' = s := by
        rcases gives_visit_leaf.mp hv with ⟨_, -, -, hsame⟩ | ⟨_, _, _, -, -, -, hsame⟩
          <;> exact hsame
      exact .plain hs .refl
    | call => exact settled_expression hv hs nofun
    | binary hform =>
      rw [entries_binary hform]
      exact settled_expression hv hs nofun
  | block l items ih =>
    intro s v s' f claims M hv hs
    obtain ⟨-, hitems, -⟩ := gives_visit_block.mp hv
    exact settled_statements (fun n hn => settledChild_of fun t ht => ih t (ht ▸ hn)) hitems hs
  | ret l value => exact fun s v s' f claims M hv hs => settled_return hv hs
  | declaration l form type names hform =>
    intro s v s' f claims M hv hs
    obtain ⟨x, hx, hdecl⟩ := declares_of_gives_visit hform hv hs.tracks.frame
    obtain ⟨-, place, stars, rfl⟩ := Variable.ofNodes?_eq_some hx
    rcases hform with rfl | rfl <;> exact settled_declaration hdecl hs
  | ifThen l cond body ih =>
    exact fun s v s' f claims M hv hs => settled_ifThen (settledChild_of ih) hv hs
  | loop l cond body ih =>
    exact fun s v s' f claims M hv hs => settled_while (settledChild_of ih) hv hs
  | ifThenElse l cond body body' ih ih' =>
    exact fun s v s' f claims M hv hs => settled_ifThenElse (settledChild_of ih)
      (settledChild_of ih') hv hs

end CSubset.Dominance
