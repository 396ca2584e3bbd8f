import CSubset.Proofs.Success

/-!
# Steps that stop

A step that does not succeed stops with a reason, and what it did to the state before stays done.
`Stops x s e s'`: from state `s`, step `x` stops with `e` and leaves `s'`. A sequence of steps stops
where the first of its members does (`stops_bind`).
-/

namespace CSubset

variable {ε σ α β : Type} {s s' : σ} {e : ε}

/-- From `s`, the step `x` stops with `e` in state `s'`. -/
def Stops (x : ExceptT ε (StateM σ) α) (s : σ) (e : ε) (s' : σ) : Prop :=
  @Eq (Except ε α × σ) (x s) (.error e, s')

theorem gives_or_stops (x : ExceptT ε (StateM σ) α) (s : σ) :
    (∃ a s', Gives x s a s') ∨ ∃ e s', Stops x s e s' := by
  unfold Gives Stops
  rcases (x s : Except ε α × σ) with ⟨e | a, t⟩
  · exact .inr ⟨e, t, rfl⟩
  · exact .inl ⟨a, t, rfl⟩

theorem Gives.not_stops {x : ExceptT ε (StateM σ) α} {a : α} {t : σ} (h : Gives x s a t) :
    ¬Stops x s e s' := by
  unfold Gives at h
  unfold Stops
  rw [h]
  simp

@[simp] theorem stops_pure {a : α} : ¬Stops (pure a : ExceptT ε (StateM σ) α) s e s' := by
  show ¬@Eq (Except ε α × σ) (.ok a, s) (.error e, s')
  simp

@[simp] theorem stops_bind {x : ExceptT ε (StateM σ) α} {f : α → ExceptT ε (StateM σ) β} :
    Stops (x >>= f) s e s' ↔ Stops x s e s' ∨ ∃ a t, Gives x s a t ∧ Stops (f a) t e s' := by
  have hrun : (x >>= f) s = ExceptT.bindCont f (x s).1 (x s).2 := rfl
  unfold Stops Gives
  rw [hrun]
  rcases hx : (x s : Except ε α × σ) with ⟨e' | a, t⟩
  · show @Eq (Except ε β × σ) (.error e', t) (.error e, s') ↔ _
    simp
  · show @Eq (Except ε β × σ) (f a t) (.error e, s') ↔ _
    constructor
    · intro h
      exact .inr ⟨a, t, rfl, h⟩
    · rintro (h | ⟨a', t', h, hf⟩)
      · simp at h
      · obtain ⟨rfl, rfl⟩ : a = a' ∧ t = t' := by simpa using h
        exact hf

/-- A step that succeeds can be taken. -/
theorem Gives.stops_bind_iff {x : ExceptT ε (StateM σ) α} {f : α → ExceptT ε (StateM σ) β} {a : α}
    {t : σ} (h : Gives x s a t) : Stops (x >>= f) s e s' ↔ Stops (f a) t e s' := by
  rw [stops_bind]
  constructor
  · rintro (hx | ⟨a', t', ha, hf⟩)
    · exact absurd hx h.not_stops
    · obtain ⟨rfl, rfl⟩ := h.unique ha
      exact hf
  · intro hf
    exact .inr ⟨a, t, h, hf⟩

@[simp] theorem stops_map {x : ExceptT ε (StateM σ) α} {f : α → β} :
    Stops (f <$> x) s e s' ↔ Stops x s e s' := by
  rw [map_eq_pure_bind, stops_bind]
  simp

@[simp] theorem stops_throw {e' : ε} :
    Stops (throw e' : ExceptT ε (StateM σ) α) s e s' ↔ e = e' ∧ s' = s := by
  show @Eq (Except ε α × σ) (.error e', s) (.error e, s') ↔ _
  simp [eq_comm]

end CSubset
