import CSubset.Proofs.Lowering.Members
import Mathlib.Data.List.ReduceOption

/-!
# What becomes of each member

A member of a program is lowered in the state behind those in front of it (`State.behind`), and it
is accepted there or rejected (`State.rejection?`). The report of a run has the rejections of its
members, in the order of the members, and nothing else (`rejections_eq_verdicts`).
-/

namespace CSubset

/-- The name of the function that a node defines. -/
def Tree.defines? {σ : Type} : Tree σ → Option String
  | .ternary _ .definition _ (some (.unary _ (.signature name) _)) _ => some name
  | _ => none

namespace Lowering

open IR (Value Func)

variable {s s' t : State} {n : Node} {u : Unit} {items before after : List (Option Node)}
  {stamp : Stamp}

/-- The state behind these members, if the first of them is lowered in state `s`. -/
def State.behind (s : State) (items : List (Option Node)) : State :=
  (visitTopLevel items s : Except Stop Unit × State).2

/-- Why member `n` is rejected in state `s`: nodes of its kind are no members, or lowering it is
given up. -/
def State.rejection? (s : State) (n : Node) : Option Rejection :=
  match n.kind with
  | .definition | .forward | .declaration =>
    match (Lowering.visit n s : Except Stop (Option Value) × State) with
    | (.error (.rejected r), _) => some r
    | _ => none
  | kind => some ⟨.atTopLevel kind, some n.place, s.scope⟩

/-- Why each member is rejected, if it is. -/
def State.verdicts (s : State) : List (Option Node) → List (Option Rejection)
  | [] => []
  | n :: ns => n.bind s.rejection? :: (s.behind [n]).verdicts ns

/-! ## States behind members -/

theorem State.behind_eq (h : Gives (visitTopLevel items) s u s') : s.behind items = s' := by
  unfold State.behind
  rw [h]

theorem gives_visitTopLevel_append :
    Gives (visitTopLevel (before ++ after)) s u s' ↔
      ∃ t, Gives (visitTopLevel before) s () t ∧ Gives (visitTopLevel after) t u s' := by
  induction before generalizing s with
  | nil =>
    simp only [List.nil_append, gives_visitTopLevel_nil]
    exact ⟨fun h => ⟨s, rfl, h⟩, fun ⟨_, ht, h⟩ => ht ▸ h⟩
  | cons n before ih =>
    cases n with
    | none => simp [visitTopLevel]
    | some n =>
      simp only [List.cons_append, visitTopLevel_some, gives_bind, ih]
      constructor
      · rintro ⟨v, s₁, hn, t, hbefore, hafter⟩
        exact ⟨t, ⟨v, s₁, hn, hbefore⟩, hafter⟩
      · rintro ⟨t, ⟨v, s₁, hn, hbefore⟩, hafter⟩
        exact ⟨v, s₁, hn, t, hbefore, hafter⟩

theorem gives_visitTopLevel_singleton {n : Option Node} :
    Gives (visitTopLevel [n]) s u s' ↔ ∃ m, n = some m ∧
      Gives (recording (visitItem m)) s () s' := by
  cases n with
  | none => simp [visitTopLevel]
  | some n =>
    simp only [visitTopLevel_some, gives_bind, gives_visitTopLevel_nil]
    constructor
    · rintro ⟨_, t, hn, rfl⟩
      exact ⟨n, rfl, hn⟩
    · rintro ⟨_, ⟨⟩, hn⟩
      exact ⟨(), s', hn, rfl⟩

/-- The states in front of a member, behind it and behind all members. -/
theorem gives_visitTopLevel_split (h : Gives (visitTopLevel (before ++ some n :: after)) s u s') :
    ∃ t, Gives (visitTopLevel before) s () (s.behind before) ∧
      Gives (recording (visitItem n)) (s.behind before) () t ∧
      Gives (visitTopLevel after) t u s' := by
  obtain ⟨t₀, hbefore, hrest⟩ := gives_visitTopLevel_append.mp h
  rw [visitTopLevel_some, gives_bind] at hrest
  obtain ⟨_, t, hn, hafter⟩ := hrest
  rw [State.behind_eq hbefore]
  exact ⟨t, hbefore, hn, hafter⟩

theorem steady_of_gives_visitTopLevel (hs : s.Steady) (h : Gives (visitTopLevel items) s u s') :
    s'.Steady ∧ s.Later s' := by
  refine (invariant_of_gives_visitTopLevel (motive := fun t => t.Steady ∧ s.Later t) ?_ hs
    ⟨hs, .refl s⟩ h).2
  rintro t n t' - ⟨ht, hlater⟩ hmember
  obtain ⟨ht', hlater'⟩ := hmember.steady ht
  exact ⟨ht', hlater.trans hlater'⟩

/-! ## Verdicts -/

theorem State.rejection?_of_gives (h : Gives (visitItem n) s u s') : s.rejection? n = none := by
  obtain ⟨hkind, v, hv⟩ := gives_visitItem.mp h
  unfold State.rejection?
  rw [show (Lowering.visit n s : Except Stop (Option Value) × State) = (.ok v, s') from hv]
  rcases hkind with hkind | hkind | hkind <;> rw [hkind]

theorem State.rejection?_of_stops {r : Rejection} (h : Stops (visitItem n) s (.rejected r) t) :
    s.rejection? n = some r := by
  have hvisit : Stops (do let _ ← Lowering.visit n : LowerM Unit) s (.rejected r) t →
      (Lowering.visit n s : Except Stop (Option Value) × State) = (.error (.rejected r), t) := by
    intro hstops
    simp only [stops_bind, stops_pure, and_false, exists_false, or_false] at hstops
    exact hstops
  unfold visitItem at h
  unfold State.rejection?
  cases hkind : n.kind <;> simp only [hkind] at h ⊢
  case definition | forward | declaration => rw [hvisit h]
  all_goals
    -- a node of any other kind is no member
    obtain ⟨hr, -⟩ := stops_throw.mp h
    rw [Stop.rejected.inj hr]

/-- A member is accepted, or rejected and the rejection recorded. -/
theorem gives_verdict (h : Gives (recording (visitItem n)) s u s') :
    (s.rejection? n = none ∧ Gives (visitItem n) s u s') ∨
      ∃ r t, s.rejection? n = some r ∧ Stops (visitItem n) s (.rejected r) t ∧
        s' = { t with rejections := t.rejections ++ [r] } := by
  rcases gives_recording.mp h with h | ⟨r, t, hstops, rfl⟩
  · exact .inl ⟨State.rejection?_of_gives h, h⟩
  · exact .inr ⟨r, t, State.rejection?_of_stops hstops, hstops, rfl⟩

/-- The rejection of a member is the one that is added to the report. -/
theorem rejections_of_gives_recording (hs : s.Steady) (h : Gives (recording (visitItem n)) s u s') :
    s'.rejections = s.rejections ++ (s.rejection? n).toList := by
  rcases gives_verdict h with ⟨hnone, hn⟩ | ⟨r, t, hr, hstops, rfl⟩
  · rw [hnone, rejections_of_gives_visitItem hn]
    simp
  · rw [hr, (stopsIn_visitItem hs.frame hs.scope _ t hstops).2.rejections]
    rfl

/-- A definition that is accepted is the first one of its function, which gets a body. -/
theorem accepted_definition (hs : s.Steady) (hkind : n.kind = .definition)
    (h : Gives (visitItem n) s u s') :
    ∃ name fn, n.defines? = some name ∧ name ∉ s.defined ∧ s'.defined = name :: s.defined ∧
      s'.module.func? name = some fn ∧ fn.blocks ≠ [] := by
  obtain ⟨hmember, v, hv⟩ := gives_visitItem.mp h
  cases ((gives_visit_item hs.frame hmember).mp hv).1 with
  | global hform _ _ => rcases hform with rfl | rfl <;> cases hkind
  | prototype _ _ _ => cases hkind
  | definition hdef =>
    obtain ⟨-, -, hdefined, -, _, fn, _, _, _, _, _, -, hfn, hbody, -⟩ := hdef.body hs
    obtain ⟨_, _, _, _, _, _, -, -, hdecl, -⟩ := hdef
    exact ⟨_, fn, rfl, hdecl.not_mem_defined hs, hdefined, hfn, hbody.blocks_ne_nil⟩

theorem rejections_eq_verdicts (hs : s.Steady) (h : Gives (visitTopLevel items) s u s') :
    s'.rejections = s.rejections ++ (s.verdicts items).reduceOption := by
  induction items generalizing s with
  | nil =>
    obtain rfl := gives_visitTopLevel_nil.mp h
    simp [State.verdicts]
  | cons c items ih =>
    obtain ⟨s₁, hfirst, hrest⟩ :=
      gives_visitTopLevel_append.mp (show Gives (visitTopLevel ([c] ++ items)) s u s' from h)
    obtain ⟨n, rfl, hn⟩ := gives_visitTopLevel_singleton.mp hfirst
    have hs₁ := (steady_of_gives_visitTopLevel hs hfirst).1
    rw [ih hs₁ hrest, rejections_of_gives_recording hs hn, State.verdicts, State.behind_eq hfirst,
      Option.bind_some]
    cases s.rejection? n <;> simp

/-- Lowering a program is lowering its members. -/
theorem build_eq_ok_iff_members {sourceName : String} {out : Outcome (Option Failure)} :
    build sourceName (some (.seq stamp .program items)) = .ok out ↔
      Gives (visitTopLevel items) (State.start sourceName) () out.state ∧
        out = ⟨out.state.failure?, out.state.warnings, out.state⟩ := by
  rw [build_eq_ok_iff]
  refine and_congr_left fun _ => ⟨fun hrun => ?_, fun hitems => ?_⟩
  · rcases gives_recording.mp hrun with hvisit | ⟨r, t, hstops, -⟩
    · simp only [gives_bind, gives_pure] at hvisit
      obtain ⟨v, _, hv, -, rfl⟩ := hvisit
      exact (gives_visit_program.mp hv).2.1
    · -- a list of members is never rejected as a whole
      have hstops : Stops (do let _ ← visit (.seq stamp .program items) : LowerM Unit)
          (State.start sourceName) (.rejected r) t :=
        hstops
      simp only [stops_bind, stops_pure, and_false, exists_false, or_false] at hstops
      cases missing_of_stops_visitTopLevel (State.sound_start sourceName).toSteady
        ((stops_visit_program rfl).mp hstops)
  · refine gives_recording.mpr (.inl ?_)
    simp only [gives_bind, gives_pure]
    exact ⟨none, _, gives_visit_program.mpr ⟨rfl, hitems, rfl⟩, trivial, rfl⟩

/-- Lowering a whole program ends, and it lowers the members one by one. -/
theorem build_of_whole (sourceName : String) (hwhole : Node.Whole (.seq stamp .program items)) :
    ∃ out, build sourceName (some (.seq stamp .program items)) = .ok out ∧
      Gives (visitTopLevel items) (State.start sourceName) () out.state := by
  obtain ⟨s, hs⟩ :=
    gives_visitTopLevel_of_whole (State.sound_start sourceName).toSteady hwhole.allItems
  exact ⟨⟨s.failure?, s.warnings, s⟩, build_eq_ok_iff_members.mpr ⟨hs, rfl⟩, hs⟩

end Lowering

end CSubset
