import CSubset.IR.Flow

/-!
# Which blocks can be reached

`Leads ends b c`: control can get from block `b` to block `c`. The search of the flow check marks
the blocks that can be reached from its work list, and no others (`mem_reach_iff`). So the check
says exactly what is wrong with a body: it complains about the first block without an end, if there
is one, and otherwise about the first one that control does not get to (`flow_check_decides`).

Nothing is assumed of the blocks but that two of them can be told apart. Ends lead to any number of
blocks, and a block may stand in the list more than once.
-/

namespace CSubset.IR.Flow

/-- Control can get from block `b` to block `c`. -/
inductive Leads {β : Type} (ends : β → Option (List β)) (b : β) : β → Prop where
  | refl : Leads ends b b
  | step {c d : β} (h : Leads ends b c) (hd : d ∈ next ends c) : Leads ends b d

variable {β : Type} {ends : β → Option (List β)} {blocks : List β} {b c d : β}

theorem Leads.trans (hbc : Leads ends b c) (hcd : Leads ends c d) : Leads ends b d := by
  induction hcd with
  | refl => exact hbc
  | step _ hd ih => exact .step ih hd

theorem mem_next : c ∈ next ends b ↔ ∃ cs, ends b = some cs ∧ c ∈ cs := by
  unfold next
  cases ends b <;> simp

/-- Control can get to block `b` from the front of the list. -/
def Reached (blocks : List β) (ends : β → Option (List β)) (b : β) : Prop :=
  ∃ entry, blocks.head? = some entry ∧ Leads ends entry b

/-! ## The search

Three invariants of the work list, each by induction along the search: what has been marked stays
marked; the marked blocks are closed under going on, but for what still waits; and all that is
marked or waits can be reached. -/

section Search

variable [DecidableEq β]

/-- What has been marked stays marked, and what is to be looked at will be. -/
theorem mem_reach (blocks : List β) (ends : β → Option (List β)) (seen work : List β) :
    (∀ b ∈ seen, b ∈ reach blocks ends seen work) ∧
      ∀ b ∈ work, b ∈ blocks → b ∈ reach blocks ends seen work := by
  fun_induction reach blocks ends seen work with
  | case1 seen => simp
  | case2 seen b work h ih =>
    obtain ⟨hseen, hwork⟩ := ih
    refine ⟨fun c hc => hseen c (List.mem_cons_of_mem b hc), ?_⟩
    intro c hc hmem
    rcases List.mem_cons.mp hc with rfl | hc
    · exact hseen c List.mem_cons_self
    · exact hwork c (List.mem_append_right _ hc) hmem
  | case3 seen b work h ih =>
    obtain ⟨hseen, hwork⟩ := ih
    refine ⟨hseen, ?_⟩
    intro c hc hmem
    rcases List.mem_cons.mp hc with rfl | hc
    · -- `c` is passed over although it is a block: it has been marked before
      exact hseen c (Decidable.byContradiction fun hc => h ⟨hmem, hc⟩)
    · exact hwork c hc hmem

/-- The marked blocks are closed under going on, as long as the work list has what is still open. -/
theorem reach_closed (blocks : List β) (ends : β → Option (List β)) (seen work : List β)
    (hseen : ∀ b ∈ seen, ∀ c ∈ next ends b, c ∈ blocks → c ∈ seen ∨ c ∈ work) :
    ∀ b ∈ reach blocks ends seen work, ∀ c ∈ next ends b, c ∈ blocks →
      c ∈ reach blocks ends seen work := by
  fun_induction reach blocks ends seen work with
  | case1 seen => simpa using hseen
  | case2 seen b work h ih =>
    apply ih
    intro c hc d hd hmem
    rcases List.mem_cons.mp hc with rfl | hc
    · exact .inr (List.mem_append_left _ hd)
    · rcases hseen c hc d hd hmem with hmem | hmem
      · exact .inl (List.mem_cons_of_mem b hmem)
      · rcases List.mem_cons.mp hmem with rfl | hmem
        · exact .inl List.mem_cons_self
        · exact .inr (List.mem_append_right _ hmem)
  | case3 seen b work h ih =>
    apply ih
    intro c hc d hd hmem
    rcases hseen c hc d hd hmem with hin | hin
    · exact .inl hin
    · rcases List.mem_cons.mp hin with rfl | hin
      · exact .inl (Decidable.byContradiction fun hd => h ⟨hmem, hd⟩)
      · exact .inr hin

/-- What is marked can be reached, if this holds of what is marked at first and of what is to be
looked at. -/
theorem leads_of_mem_reach {p : β → Prop} (blocks : List β) (ends : β → Option (List β))
    (seen work : List β) (hp : ∀ b, p b → ∀ c ∈ next ends b, p c)
    (hseen : ∀ b ∈ seen, b ∈ blocks ∧ p b) (hwork : ∀ b ∈ work, p b) :
    ∀ b ∈ reach blocks ends seen work, b ∈ blocks ∧ p b := by
  fun_induction reach blocks ends seen work with
  | case1 seen => exact hseen
  | case2 seen b work h ih =>
    have hb : p b := hwork b List.mem_cons_self
    refine ih (List.forall_mem_cons.mpr ⟨⟨h.1, hb⟩, hseen⟩) fun c hc => ?_
    rcases List.mem_append.mp hc with hc | hc
    · exact hp b hb c hc
    · exact hwork c (List.mem_cons_of_mem b hc)
  | case3 seen b work h ih => exact ih hseen fun c hc => hwork c (List.mem_cons_of_mem b hc)

/-- The search finds exactly the blocks that control can get to, if only blocks of the list lead
anywhere. -/
theorem mem_reach_iff (hinside : ∀ b, Reached blocks ends b → ∀ c ∈ next ends b, b ∈ blocks) :
    b ∈ reach blocks ends [] (blocks.take 1) ↔ b ∈ blocks ∧ Reached blocks ends b := by
  cases blocks with
  | nil => simp [reach]
  | cons entry rest =>
    rw [List.take_succ_cons, List.take_zero]
    constructor
    · refine leads_of_mem_reach _ ends [] [entry] ?_ (List.forall_mem_nil _) ?_ b
      · rintro b ⟨e, he, hb⟩ c hc
        exact ⟨e, he, hb.step hc⟩
      · exact List.forall_mem_singleton.mpr ⟨entry, rfl, .refl⟩
    · rintro ⟨hmem, e, he, hb⟩
      obtain rfl := Option.some.inj he
      induction hb with
      | refl => exact (mem_reach _ ends [] [entry]).2 entry List.mem_cons_self hmem
      | step hc hd ih =>
        have hc := ih (hinside _ ⟨entry, rfl, hc⟩ _ hd)
        exact reach_closed _ ends [] [entry] (List.forall_mem_nil _) _ hc _ hd hmem

end Search

/-! ## The check

It complains about the first open block, and without one about the first that is not reached. -/

/-- Why the check complains about a body, and about which of its blocks. -/
inductive Faulted (blocks : List β) (ends : β → Option (List β)) : Defect β → Prop
  /-- The first block without an end. -/
  | openBlock {before after : List β} {b : β} (hsplit : blocks = before ++ b :: after)
    (hopen : ends b = none) (hfirst : ∀ c ∈ before, ends c ≠ none) :
    Faulted blocks ends (.openBlock b)
  /-- The first block that control does not get to, in a body without open blocks. -/
  | unreachable {before after : List β} {b : β} (hclosed : ∀ c ∈ blocks, ends c ≠ none)
    (hsplit : blocks = before ++ b :: after) (hlost : ¬Reached blocks ends b)
    (hfirst : ∀ c ∈ before, Reached blocks ends c) : Faulted blocks ends (.unreachable b)

/-- Nothing is wrong with a body. -/
structure Whole (blocks : List β) (ends : β → Option (List β)) : Prop where
  closed : ∀ b ∈ blocks, ends b ≠ none
  reached : ∀ b ∈ blocks, Reached blocks ends b

/-- The check finds nothing in a whole body, and otherwise what is wrong with it. -/
theorem firstDefect?_cases [DecidableEq β]
    (hinside : ∀ b, Reached blocks ends b → ∀ c ∈ next ends b, b ∈ blocks) :
    (firstDefect? blocks ends = none ∧ Whole blocks ends) ∨
      ∃ d, firstDefect? blocks ends = some d ∧ Faulted blocks ends d := by
  unfold firstDefect?
  cases hopen : blocks.find? fun b => (ends b).isNone with
  | some b =>
    obtain ⟨hb, before, after, hsplit, hfirst⟩ := List.find?_eq_some_iff_append.mp hopen
    refine .inr ⟨_, rfl, .openBlock hsplit (Option.isNone_iff_eq_none.mp hb) fun c hc hnone => ?_⟩
    simpa [hnone] using hfirst c hc
  | none =>
    have hclosed : ∀ b ∈ blocks, ends b ≠ none := fun b hb hnone =>
      List.find?_eq_none.mp hopen b hb (Option.isNone_iff_eq_none.mpr hnone)
    dsimp only
    cases hlost : blocks.find? (· ∉ reach blocks ends [] (blocks.take 1)) with
    | none =>
      refine .inl ⟨rfl, hclosed, fun b hb => ?_⟩
      have hfound := List.find?_eq_none.mp hlost b hb
      exact ((mem_reach_iff hinside).mp (by simpa using hfound)).2
    | some b =>
      obtain ⟨hb, before, after, hsplit, hfirst⟩ := List.find?_eq_some_iff_append.mp hlost
      have hmem : b ∈ blocks := hsplit ▸ List.mem_append_right _ List.mem_cons_self
      refine .inr ⟨_, rfl, .unreachable hclosed hsplit (fun hreached => ?_) fun c hc => ?_⟩
      · simp [(mem_reach_iff hinside).mpr ⟨hmem, hreached⟩] at hb
      · exact ((mem_reach_iff hinside).mp (by simpa using hfirst c hc)).2

/-- There is only one first member of a list with a property. -/
theorem eq_of_first {p : β → Prop} {as as' bs bs' : List β}
    (hsplit : as ++ b :: bs = as' ++ c :: bs') (hb : p b) (hc : p c) (hfirst : ∀ d ∈ as, ¬p d)
    (hfirst' : ∀ d ∈ as', ¬p d) : b = c := by
  induction as generalizing as' with
  | nil =>
    cases as' with
    | nil => exact (List.cons.inj hsplit).1
    | cons d as' =>
      obtain ⟨rfl, -⟩ := List.cons.inj hsplit
      exact absurd hb (hfirst' b List.mem_cons_self)
  | cons d as ih =>
    cases as' with
    | nil =>
      obtain ⟨rfl, -⟩ := List.cons.inj hsplit
      exact absurd hc (hfirst d List.mem_cons_self)
    | cons e as' =>
      refine ih (List.cons.inj hsplit).2 (fun x hx => hfirst x (List.mem_cons_of_mem d hx)) ?_
      exact fun x hx => hfirst' x (List.mem_cons_of_mem e hx)

/-- At most one complaint is right. -/
theorem Faulted.unique {x y : Defect β} (h : Faulted blocks ends x) (h' : Faulted blocks ends y) :
    x = y := by
  cases h with
  | openBlock hsplit hopen hfirst =>
    cases h' with
    | openBlock hsplit' hopen' hfirst' =>
      rw [eq_of_first (p := (ends · = none)) (hsplit.symm.trans hsplit') hopen hopen'
        hfirst hfirst']
    | unreachable hclosed => exact absurd hopen (hclosed _ (by simp [hsplit]))
  | unreachable hclosed hsplit hlost hfirst =>
    cases h' with
    | openBlock hsplit' hopen' => exact absurd hopen' (hclosed _ (by simp [hsplit']))
    | unreachable _ hsplit' hlost' hfirst' =>
      rw [eq_of_first (p := (¬Reached blocks ends ·)) (hsplit.symm.trans hsplit') hlost hlost'
        (fun c hc hnot => hnot (hfirst c hc)) fun c hc hnot => hnot (hfirst' c hc)]

/-- There is nothing to complain about in a whole body. -/
theorem Whole.not_faulted {x : Defect β} (h : Whole blocks ends) : ¬Faulted blocks ends x := by
  rintro (⟨hsplit, hopen, -⟩ | ⟨-, hsplit, hlost, -⟩)
  · exact h.closed _ (by simp [hsplit]) hopen
  · exact hlost (h.reached _ (by simp [hsplit]))

theorem firstDefect?_eq_none_iff [DecidableEq β]
    (hinside : ∀ b, Reached blocks ends b → ∀ c ∈ next ends b, b ∈ blocks) :
    firstDefect? blocks ends = none ↔ Whole blocks ends := by
  rcases firstDefect?_cases hinside with ⟨hnone, hwhole⟩ | ⟨d, hsome, hfault⟩
  · exact ⟨fun _ => hwhole, fun _ => hnone⟩
  · rw [hsome]
    exact ⟨nofun, fun hwhole => absurd hfault hwhole.not_faulted⟩

/-- Where ends lead to blocks of the list only, control stays in it. -/
theorem Reached.mem (hends : ∀ b ∈ blocks, ∀ cs, ends b = some cs → ∀ c ∈ cs, c ∈ blocks)
    (h : Reached blocks ends b) : b ∈ blocks := by
  obtain ⟨entry, hentry, h⟩ := h
  induction h with
  | refl => exact List.mem_of_head? hentry
  | step _ hd ih =>
    obtain ⟨cs, hcs, hd⟩ := mem_next.mp hd
    exact hends _ ih cs hcs _ hd

/-- The check passes a list of blocks exactly if it is empty, or if each of them has its end and
control gets to it from the first. It complains about any other list, and names the first block
without an end or, if all have one, the first block that control does not get to. An end may lead to
any blocks of the list: back, to its own block, to none, or many times to the same one. -/
theorem flow_check_decides {β : Type} [DecidableEq β] (blocks : List β)
    (ends : β → Option (List β))
    (hends : ∀ b ∈ blocks, ∀ cs, ends b = some cs → ∀ c ∈ cs, c ∈ blocks) :
    (firstDefect? blocks ends = none ↔
      blocks = [] ∨ ((∀ b ∈ blocks, ends b ≠ none) ∧ ∀ b ∈ blocks, Reached blocks ends b)) ∧
    ∀ x, firstDefect? blocks ends = some x ↔ Faulted blocks ends x := by
  have hinside : ∀ b, Reached blocks ends b → ∀ c ∈ next ends b, b ∈ blocks :=
    fun b hb _ _ => hb.mem hends
  constructor
  · rw [firstDefect?_eq_none_iff hinside]
    constructor
    · exact fun hwhole => .inr ⟨hwhole.closed, hwhole.reached⟩
    · rintro (rfl | ⟨hclosed, hreached⟩)
      · exact ⟨nofun, nofun⟩
      · exact ⟨hclosed, hreached⟩
  · intro x
    rcases firstDefect?_cases hinside with ⟨hnone, hwhole⟩ | ⟨y, hsome, hfault⟩
    · rw [hnone]
      exact ⟨nofun, fun h => absurd h hwhole.not_faulted⟩
    · rw [hsome, Option.some.injEq]
      exact ⟨fun h => h ▸ hfault, fun h => hfault.unique h⟩

/-- A switch that leads to its own block and twice to `a`, which leaves the body; `b` leads to all
blocks but the first and is met from none but itself. -/
def switchEnds : String → Option (List String)
  | "entry" => some ["entry", "a", "a"]
  | "b" => some ["a", "b", "a", "b"]
  | _ => some []

theorem flow_check_decides_switch :
    (∀ b ∈ ["entry", "a", "b"], ∀ cs, switchEnds b = some cs → ∀ c ∈ cs, c ∈ ["entry", "a", "b"]) ∧
    firstDefect? ["entry", "a", "b"] switchEnds = some (.unreachable "b") := by
  have hends : ∀ b ∈ ["entry", "a", "b"], ∀ cs, switchEnds b = some cs →
      ∀ c ∈ cs, c ∈ ["entry", "a", "b"] := by
    simp [switchEnds]
  have hmet : ∀ b, Leads switchEnds "entry" b ↔ b = "entry" ∨ b = "a" := by
    refine fun b => ⟨fun h => ?_, ?_⟩
    · induction h with
      | refl => exact .inl rfl
      | step _ hd ih =>
        rcases ih with rfl | rfl
        · simpa [next, switchEnds] using hd
        · simp [next, switchEnds] at hd
    · rintro (rfl | rfl)
      · exact .refl
      · exact .step .refl (by simp [next, switchEnds])
  refine ⟨hends, ((flow_check_decides _ switchEnds hends).2 _).mpr ?_⟩
  have hsplit : ["entry", "a", "b"] = ["entry", "a"] ++ "b" :: [] := rfl
  refine .unreachable (by simp [switchEnds]) hsplit ?_ ?_
  · rintro ⟨entry, ⟨⟩, h⟩
    simpa using (hmet "b").mp h
  · exact fun b hb => ⟨_, rfl, (hmet b).mpr (by simpa using hb)⟩

/-! ## Bodies -/

section Bodies

variable {blocks : List Block} {i k : Nat}

theorem mem_next_endOf : k ∈ next (endOf blocks) i ↔
    ∃ b t, blocks[i]? = some b ∧ b.term = some t ∧ k ∈ t.targets := by
  unfold next endOf
  cases hb : blocks[i]? with
  | none => simp
  | some b => cases ht : b.term <;> simp [ht]

/-- The check passes a body exactly if each block has its end and control gets to it from the
first. -/
theorem defect?_eq_none_iff :
    defect? blocks = none ↔
      (∀ b ∈ blocks, b.term ≠ none) ∧ ∀ i < blocks.length, Leads (endOf blocks) 0 i := by
  have hinside : ∀ i, Reached (List.range blocks.length) (endOf blocks) i →
      ∀ k ∈ next (endOf blocks) i, i ∈ List.range blocks.length := by
    intro i _ k hk
    obtain ⟨b, -, hb, -⟩ := mem_next_endOf.mp hk
    exact List.mem_range.mpr (List.getElem?_eq_some_iff.mp hb).1
  rw [defect?, Option.map_eq_none_iff, firstDefect?_eq_none_iff hinside]
  constructor
  · rintro ⟨hclosed, hreached⟩
    refine ⟨fun b hb hnone => ?_, fun i hi => ?_⟩
    · obtain ⟨i, hi, rfl⟩ := List.mem_iff_getElem.mp hb
      exact hclosed i (List.mem_range.mpr hi) (by simp [endOf, hi, hnone])
    · obtain ⟨entry, hentry, hleads⟩ := hreached i (List.mem_range.mpr hi)
      obtain rfl : 0 = entry := by
        simpa [List.head?_range, Nat.ne_of_gt (Nat.zero_lt_of_lt hi)] using hentry
      exact hleads
  · rintro ⟨hclosed, hreached⟩
    refine ⟨fun i hi => ?_, fun i hi => ?_⟩
    · have hi := List.mem_range.mp hi
      simpa [endOf, hi] using hclosed blocks[i] (List.getElem_mem hi)
    · have hi := List.mem_range.mp hi
      exact ⟨0, by simp [List.head?_range, Nat.ne_of_gt (Nat.zero_lt_of_lt hi)], hreached i hi⟩

end Bodies

end CSubset.IR.Flow
