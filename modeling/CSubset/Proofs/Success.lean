/-!
# Steps that succeed

Lowering, folding and the execution of trees are steps that change a state and may fail. `Gives x s
a s'`: from state `s`, step `x` succeeds with `a` and leaves `s'`. A sequence of steps succeeds if
its members do (`gives_bind`); a failure never does.
-/

namespace CSubset

variable {ε σ α β : Type} {s s' : σ}

/-- From `s`, the step `x` succeeds with result `a` in state `s'`. -/
def Gives (x : ExceptT ε (StateM σ) α) (s : σ) (a : α) (s' : σ) : Prop :=
  @Eq (Except ε α × σ) (x s) (.ok a, s')

theorem Gives.unique {x : ExceptT ε (StateM σ) α} {a b : α} {s₁ s₂ : σ} (h₁ : Gives x s a s₁)
    (h₂ : Gives x s b s₂) : a = b ∧ s₁ = s₂ := by
  unfold Gives at h₁ h₂
  rw [h₁] at h₂
  simpa using h₂

/-! ## Sequences

One equivalence for each way to put steps together. -/

@[simp] theorem gives_pure {a b : α} :
    Gives (pure a : ExceptT ε (StateM σ) α) s b s' ↔ b = a ∧ s' = s := by
  show @Eq (Except ε α × σ) (.ok a, s) (.ok b, s') ↔ _
  simp [eq_comm]

@[simp] theorem gives_bind {x : ExceptT ε (StateM σ) α} {f : α → ExceptT ε (StateM σ) β} {b : β} :
    Gives (x >>= f) s b s' ↔ ∃ a t, Gives x s a t ∧ Gives (f a) t b s' := by
  have hrun : (x >>= f) s = ExceptT.bindCont f (x s).1 (x s).2 := rfl
  unfold Gives
  rw [hrun]
  rcases hx : (x s : Except ε α × σ) with ⟨e | a, t⟩
  · constructor
    · intro h
      exact absurd (show @Eq (Except ε β × σ) (.error e, t) (.ok b, s') from h) (by simp)
    · rintro ⟨a, t', h, -⟩
      simp at h
  · constructor
    · intro h
      exact ⟨a, t, rfl, h⟩
    · rintro ⟨a', t', h, hf⟩
      obtain ⟨rfl, rfl⟩ : a = a' ∧ t = t' := by simpa using h
      exact hf

/-- A step that succeeds can be taken. -/
theorem Gives.bind_iff {x : ExceptT ε (StateM σ) α} {f : α → ExceptT ε (StateM σ) β} {a : α} {b : β}
    {t : σ} (h : Gives x s a t) : Gives (x >>= f) s b s' ↔ Gives (f a) t b s' := by
  rw [gives_bind]
  constructor
  · rintro ⟨a', t', h', hf⟩
    obtain ⟨rfl, rfl⟩ := h.unique h'
    exact hf
  · intro hf
    exact ⟨a, t, h, hf⟩

@[simp] theorem gives_map {x : ExceptT ε (StateM σ) α} {f : α → β} {b : β} :
    Gives (f <$> x) s b s' ↔ ∃ a, Gives x s a s' ∧ b = f a := by
  rw [map_eq_pure_bind, gives_bind]
  constructor
  · rintro ⟨a, t, hx, h⟩
    obtain ⟨rfl, rfl⟩ := gives_pure.mp h
    exact ⟨a, hx, rfl⟩
  · rintro ⟨a, hx, rfl⟩
    exact ⟨a, s', hx, gives_pure.mpr ⟨rfl, rfl⟩⟩

@[simp] theorem gives_get {a : σ} :
    Gives (get : ExceptT ε (StateM σ) σ) s a s' ↔ a = s ∧ s' = s := by
  show @Eq (Except ε σ × σ) (.ok s, s) (.ok a, s') ↔ _
  simp [eq_comm]

@[simp] theorem gives_modify {f : σ → σ} {u : Unit} :
    Gives (modify f : ExceptT ε (StateM σ) Unit) s u s' ↔ s' = f s := by
  show @Eq (Except ε Unit × σ) (.ok (), f s) (.ok u, s') ↔ _
  simp [eq_comm]

@[simp] theorem gives_ite {c : Prop} [Decidable c] {x y : ExceptT ε (StateM σ) α} {a : α} :
    Gives (if c then x else y) s a s' ↔ (c ∧ Gives x s a s') ∨ (¬c ∧ Gives y s a s') := by
  by_cases h : c <;> simp [h]

@[simp] theorem gives_throw {e : ε} {a : α} : ¬Gives (throw e : ExceptT ε (StateM σ) α) s a s' := by
  show ¬@Eq (Except ε α × σ) (.error e, s) (.ok a, s')
  simp

/-- A result that may be missing passes a check only if it is there. -/
theorem exists_ok_of_any {x : Except ε α} {p : α → Bool} (h : x.toOption.any p = true) :
    ∃ a, x = .ok a ∧ p a = true := by
  cases x with
  | error e => cases h
  | ok a => exact ⟨a, rfl, h⟩

end CSubset
