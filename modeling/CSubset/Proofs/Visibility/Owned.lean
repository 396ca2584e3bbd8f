import CSubset.Proofs.Simulation.Programs

/-!
# Variables of the function that is being lowered

Once a statement has been lowered, each variable that it declares is a variable of the function that
is being lowered, and what stands behind it is lowered as well unless control cannot get there
(`leaves_of_gives_visit`). The same holds of the parameters once they are stored
(`owns_of_gives_storeParams`).
-/

namespace CSubset.Lowering

open IR (Value Param)
open Execution (declared declaredChild declaredItems passes passesChild passesItems)

variable {s s' t : State} {f g h : Frame} {u : Unit} {x : String}

/-- The name `x` stands for a variable of the function that is being lowered. -/
def State.Owns (s : State) (x : String) : Prop :=
  ∃ slot func, s.symbol? x = some (.var slot (some func)) ∧ s.frame.map (·.func) = some func

theorem State.Within.owns (hs : s.Within s' f g) (hf : s.frame = some f) (hx : s.Owns x) :
    s'.Owns x := by
  obtain ⟨slot, func, hsym, hfunc⟩ := hx
  obtain rfl : f.func = func := by simpa [hf] using hfunc
  obtain ⟨new, hnew, hown⟩ := hs.symbols
  have hlookup : s'.symbol? x = (new.lookup x).or (s.symbol? x) := by
    unfold State.symbol?
    rw [hnew, List.lookup_append]
  have hframe : s'.frame.map (·.func) = some f.func := by
    rw [hs.frame, Option.map_some, hs.grows.func]
  cases hlatest : new.lookup x with
  | none =>
    rw [hlatest, Option.none_or] at hlookup
    exact ⟨slot, f.func, hlookup.trans hsym, hframe⟩
  | some sym =>
    -- a later declaration in the same function
    obtain ⟨slot', rfl⟩ := hown _ (State.mem_symbols (s := { s with symbols := new }) hlatest)
    rw [hlatest, Option.some_or] at hlookup
    exact ⟨slot', f.func, hlookup, hframe⟩

theorem owns_of_gives_storeParams {func : String} {index : Nat} {ps : List Param}
    (hps : Gives (storeParams func index ps) s u s') (hf : s.frame = some f)
    (hfunc : f.func = func) : ∀ p ∈ ps, s'.Owns p.name := by
  induction ps generalizing s f index with
  | nil => exact nofun
  | cons p ps ih =>
    obtain ⟨f', i, b, hf', hb, hrest⟩ := gives_storeParams_cons.mp hps
    obtain rfl := Option.mem_unique hf hf'
    obtain ⟨g, hg⟩ : ∃ g, s.Within (s.storeParam func index p f i b) f g :=
      State.within_storeParam hfunc hb
    intro q hq
    rcases List.mem_cons.mp hq with rfl | hq
    · obtain ⟨k, hk⟩ := within_of_gives_storeParams hrest hg.frame (hg.grows.func.trans hfunc)
      refine hk.owns hg.frame ⟨_, func, List.lookup_cons_self, ?_⟩
      rw [hg.frame, Option.map_some, hg.grows.func, hfunc]
    · exact ih hrest hg.frame (hg.grows.func.trans hfunc) q hq

/-! ## Statements -/

/-- What the proof about statements needs to know of a child: what it declares is bound, and the
block behind it is open if control passes. -/
def Leaves (n : Option Node) : Prop :=
  ∀ s u s' f g, Gives (visitStatement n) s u s' → s.frame = some f → s'.frame = some g →
    f.isOpen = true → (∀ x ∈ declaredChild false n, s'.Owns x) ∧
    (passesChild n = true → g.isOpen = true)

theorem within_of_gives_statement {n : Option Node} (hn : Gives (visitStatement n) s u s')
    (hf : s.frame = some f) : ∃ g, s.Within s' f g :=
  Stays.within (fun m _ => within_of_gives_visit m m rfl) hn hf

theorem leaves_statements {ns : List (Option Node)} (hns : ∀ n ∈ ns, Leaves n)
    (h : Gives (visitStatements ns) s u s') (hf : s.frame = some f) (hg : s'.frame = some g)
    (hopen : f.isOpen = true) :
    (∀ x ∈ declaredItems false ns, s'.Owns x) ∧ (passesItems ns = true → g.isOpen = true) := by
  induction ns generalizing s f with
  | nil =>
    obtain rfl := gives_visitStatements_nil.mp h
    obtain rfl := Option.mem_unique hf hg
    exact ⟨fun _ hx => absurd hx List.not_mem_nil, fun _ => hopen⟩
  | cons n ns ih =>
    obtain ⟨s₁, hn, hrest⟩ : ∃ s₁, Gives (visitStatement n) s () s₁ ∧
        Gives (visitStatements ns) s₁ () s' := by
      rcases gives_visitStatements_cons.mp h with ⟨-, s₁, hn, hrest⟩ | ⟨hclosed, -⟩
      · exact ⟨s₁, hn, hrest⟩
      · simp [hf, hopen] at hclosed
    obtain ⟨k, hk⟩ := within_of_gives_statement hn hf
    obtain ⟨hfirst, hpass⟩ := hns n List.mem_cons_self s () s₁ f k hn hf hk.frame hopen
    obtain ⟨g', hg'⟩ :=
      within_of_gives_visitStatements (fun _ _ m _ => within_of_gives_visit m m rfl) hrest hk.frame
    have hkept : ∀ x ∈ declaredChild false n, s'.Owns x :=
      fun x hx => hg'.owns hk.frame (hfirst x hx)
    rw [declaredItems, passesItems, Bool.or_false]
    cases hpasses : passesChild n with
    | false => exact ⟨by simpa using hkept, fun h => absurd h Bool.false_ne_true⟩
    | true =>
      obtain ⟨hitems, hopen'⟩ :=
        ih (fun m hm => hns m (List.mem_cons_of_mem _ hm)) hrest hk.frame (hpass hpasses)
      refine ⟨?_, by simpa using hopen'⟩
      intro x hx
      rcases List.mem_append.mp hx with hx | hx
      · exact hkept x hx
      · exact hitems x hx

/-- An expression declares nothing and leaves the block open. -/
theorem leaves_expression {n : Node} {v : Value} (hv : Gives (visit n) s (some v) s')
    (hf : s.frame = some f) (hg : s'.frame = some g) (hopen : f.isOpen = true)
    (hn : declared false n = []) :
    (∀ x ∈ declared false n, s'.Owns x) ∧ (passes n = true → g.isOpen = true) := by
  obtain ⟨k, hk, rfl⟩ := emits_of_gives_visit n s v s' hv f hf
  obtain rfl : k = g := Option.some.inj hg
  rw [hn]
  exact ⟨nofun, fun _ => hk.isOpen hopen⟩

theorem leaves_declares {y : Variable} (hy : s.Declares y s') (hf : s.frame = some f)
    (hg : s'.frame = some g) : s'.Owns y.name ∧ g.isOpen = true := by
  obtain ⟨i, b, hb, rfl, hwithin⟩ := hy.within hf
  obtain rfl := Option.mem_unique hg hwithin.frame
  have hnamed := hb.useName y.name
  exact ⟨⟨_, f.func, List.lookup_cons_self, rfl⟩, Frame.isOpen_iff.mpr ⟨i, _, hnamed.push _⟩⟩

/-- What is declared in a body behind a condition, and the state behind the body. -/
theorem leaves_body {body : Option Node} {next : Nat} (hbody : Leaves body)
    (hn : Gives (visitStatement body) (s.withFrame (f.moveTo (some next))) u s')
    (hwaits : f.Waits next) (hh : s'.frame = some h) :
    (∀ x ∈ declaredChild false body, s'.Owns x) ∧ (passesChild body = true → h.isOpen = true) ∧
      (s.withFrame (f.moveTo (some next))).Within s' (f.moveTo (some next)) h := by
  obtain ⟨hdeclared, hpass⟩ := hbody _ u s' _ h hn (State.withFrame_frame s _) hh hwaits.isOpen
  exact ⟨hdeclared, hpass, within_of_gives_visitStatement hn (State.withFrame_frame s _) hh⟩

/-- The frame is replaced; nothing else changes. -/
theorem State.Owns.withFrame (hx : s.Owns x) (hf : s.frame = some f) (hfunc : g.func = f.func) :
    (s.withFrame g).Owns x := by
  obtain ⟨slot, func, hsym, hframe⟩ := hx
  refine ⟨slot, func, hsym, ?_⟩
  rwa [State.withFrame_frame, Option.map_some, hfunc, ← Option.map_some (f := Frame.func), ← hf]

section Forms

variable {stamp : Stamp} {v : Option Value} {cond body thenBody elseBody : Option Node}

theorem leaves_ifThen (hbody : Leaves body)
    (hv : Gives (visit (.binary stamp .ifThen cond body)) s v s') (hf : s.frame = some f)
    (hg : s'.frame = some g) (hopen : f.isOpen = true) :
    (∀ x ∈ declaredChild false body, s'.Owns x) ∧ g.isOpen = true := by
  obtain ⟨f', c, s₁, k, i, b, s₂, l, hf', hc, hk, hb, hstmt, hl, rfl, -⟩ := gives_visit_ifThen.mp hv
  obtain rfl := Option.mem_unique hf hf'
  obtain ⟨j, d, hd⟩ := Frame.isOpen_iff.mp hopen
  obtain ⟨hnext, hend⟩ :=
    Simulation.waits_of_condition hd hc hk hb (.condBr c f.blocks.length (f.blocks.length + 1))
  obtain ⟨hdeclared, -, hwithin⟩ := leaves_body hbody hstmt hnext hl
  have hextends := Frame.extends_endWith l (.br (f.blocks.length + 1))
  refine ⟨fun x hx => (hdeclared x hx).withFrame hl hextends.func, ?_⟩
  obtain rfl := Option.some.inj hg
  exact (((hend.moveTo (by simp)).extend hwithin.grows).extend hextends).isOpen

theorem leaves_while (hbody : Leaves body)
    (hv : Gives (visit (.binary stamp .while cond body)) s v s') (hf : s.frame = some f)
    (hg : s'.frame = some g) (hopen : f.isOpen = true) :
    (∀ x ∈ declaredChild false body, s'.Owns x) ∧ g.isOpen = true := by
  obtain ⟨f', i, b, c, s₁, k, j, d, s₂, l, hf', hb, hc, hk, hd, hstmt, hl, rfl, -⟩ :=
    gives_visit_while.mp hv
  obtain rfl := Option.mem_unique hf hf'
  obtain ⟨_, _, he⟩ := Frame.isOpen_iff.mp hopen
  obtain ⟨-, -, hnext, hend⟩ := he.waits_addLoop
  -- the blocks of the body and behind the loop wait until the condition has been lowered
  obtain ⟨k', -, hcond⟩ := within_of_gives_visitOperand hc (State.withFrame_frame s _)
  obtain rfl := Option.mem_unique hk hcond.frame
  have hwaits : ∀ m, f.addLoop.Waits m → f.blocks.length ≠ m →
      (k.finish j d (.condBr c (f.blocks.length + 1) (f.blocks.length + 2))).Waits m := by
    intro m hm hne
    have hstart := hm.extend (Frame.extends_finish hb (.br f.blocks.length))
    exact ((hstart.moveTo (by simpa using hne)).extend hcond.grows).extend
      (Frame.extends_finish hd _)
  obtain ⟨hdeclared, -, hwithin⟩ := leaves_body hbody hstmt (hwaits _ hnext (by omega)) hl
  have hextends := Frame.extends_endWith l (.br f.blocks.length)
  refine ⟨fun x hx => (hdeclared x hx).withFrame hl hextends.func, ?_⟩
  obtain rfl := Option.some.inj hg
  exact ((((hwaits _ hend (by omega)).moveTo (by simp)).extend hwithin.grows).extend
    hextends).isOpen

theorem leaves_ifThenElse (hthenBody : Leaves thenBody) (helseBody : Leaves elseBody)
    (hv : Gives (visit (.ternary stamp .ifThenElse cond thenBody elseBody)) s v s')
    (hf : s.frame = some f) (hopen : f.isOpen = true) :
    (∀ x ∈ declaredChild false thenBody ++ declaredChild false elseBody, s'.Owns x) ∧
      ¬(passesChild thenBody || passesChild elseBody) = true := by
  obtain ⟨f', c, s₁, k, i, b, s₂, l, s₃, m, hf', hc, hk, hb, hthen, hl, hclosed, helse, hm,
      hclosed', rfl, -⟩ :=
    gives_visit_ifThenElse.mp hv
  obtain rfl := Option.mem_unique hf hf'
  obtain ⟨j, d, hd⟩ := Frame.isOpen_iff.mp hopen
  obtain ⟨hnext, hother⟩ :=
    Simulation.waits_of_condition hd hc hk hb (.condBr c f.blocks.length (f.blocks.length + 1))
  obtain ⟨hdeclared, hpass, hwithin⟩ := leaves_body hthenBody hthen hnext hl
  have hwaits : l.Waits (f.blocks.length + 1) := (hother.moveTo (by simp)).extend hwithin.grows
  obtain ⟨hdeclared', hpass', hwithin'⟩ := leaves_body helseBody helse hwaits hm
  constructor
  · intro x hx
    refine State.Owns.withFrame ?_ hm rfl
    rcases List.mem_append.mp hx with hx | hx
    · exact hwithin'.owns (State.withFrame_frame _ _) ((hdeclared x hx).withFrame hl rfl)
    · exact hdeclared' x hx
  · -- both branches have left the function
    intro hpasses
    rcases Bool.or_eq_true_iff.mp hpasses with hpasses | hpasses
    · exact absurd (hpass hpasses) (by simp [hclosed])
    · exact absurd (hpass' hpasses) (by simp [hclosed'])

end Forms

theorem leaves_of_gives_visit (n : Node) : Leaves (some n) := by
  -- a statement is a node that is there
  suffices hvisit : ∀ s v s' f g, Gives (visit n) s v s' → s.frame = some f → s'.frame = some g →
    f.isOpen = true →
      (∀ x ∈ declared false n, s'.Owns x) ∧ (passes n = true → g.isOpen = true) by
    intro s u s' f g hn hf hg hopen
    rcases gives_visitStatement.mp hn with ⟨hnone, -⟩ | ⟨m, v, hm, hv⟩
    · cases hnone
    · obtain rfl := Option.some.inj hm
      exact hvisit s v s' f g hv hf hg hopen
  have hchild : ∀ {c : Option Node}, (∀ m, c = some m → ∀ s v s' f g, Gives (visit m) s v s' →
      s.frame = some f → s'.frame = some g → f.isOpen = true → (∀ x ∈ declared false m, s'.Owns x) ∧
      (passes m = true → g.isOpen = true)) → Leaves c := by
    intro c hc s u s' f g hn hf hg hopen
    rcases gives_visitStatement.mp hn with ⟨rfl, rfl⟩ | ⟨m, v, rfl, hv⟩
    · obtain rfl := Option.mem_unique hf hg
      exact ⟨nofun, fun _ => hopen⟩
    · exact hc m rfl s v s' f g hv hf hg hopen
  induction n using inside_ind with
  | outside t hnone =>
    intro s v s' f g hv hf hg hopen
    simp [hnone s v s' hv] at hf
  | expression t ht =>
    intro s v s' f g hv hf hg hopen
    obtain ⟨w, rfl⟩ := ht.value hv
    refine leaves_expression hv hf hg hopen ?_
    cases ht with
    | leaf | call => rfl
    | binary hform => exact Execution.declared_binary hform
  | block l items ih =>
    intro s v s' f g hv hf hg hopen
    obtain ⟨-, hitems, -⟩ := gives_visit_block.mp hv
    exact leaves_statements (fun m hm => hchild fun t ht => ih t (ht ▸ hm)) hitems hf hg hopen
  | ret l value => exact fun s v s' f g hv hf hg hopen => ⟨nofun, nofun⟩
  | declaration l form type names hform =>
    intro s v s' f g hv hf hg hopen
    obtain ⟨y, hy, hdecl⟩ := declares_of_gives_visit hform hv hf
    obtain ⟨-, place, stars, rfl⟩ := Variable.ofNodes?_eq_some hy
    obtain ⟨howns, hopen'⟩ := leaves_declares hdecl hf hg
    refine ⟨fun x hx => ?_, fun _ => hopen'⟩
    rcases hform with rfl | rfl <;> exact List.mem_singleton.mp hx ▸ howns
  | ifThen l cond body ih =>
    intro s v s' f g hv hf hg hopen
    obtain ⟨hdeclared, hopen'⟩ := leaves_ifThen (hchild ih) hv hf hg hopen
    exact ⟨hdeclared, fun _ => hopen'⟩
  | loop l cond body ih =>
    intro s v s' f g hv hf hg hopen
    obtain ⟨hdeclared, hopen'⟩ := leaves_while (hchild ih) hv hf hg hopen
    exact ⟨hdeclared, fun _ => hopen'⟩
  | ifThenElse l cond body body' ih ih' =>
    intro s v s' f g hv hf hg hopen
    obtain ⟨hdeclared, hpasses⟩ := leaves_ifThenElse (hchild ih) (hchild ih') hv hf hopen
    exact ⟨hdeclared, fun h => absurd h hpasses⟩

end CSubset.Lowering
