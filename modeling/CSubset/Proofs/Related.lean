import Mathlib.Data.List.Forall2

/-!
# Related options and lists

What two lists have in common whose members are related one by one (`List.Forall₂`), and two options
that are both empty or hold related values (`Option.Rel`).
-/

namespace CSubset

variable {α β : Type} {R : α → β → Prop} {as : List α} {bs : List β}

theorem rel_cases {a : Option α} {b : Option β} (h : Option.Rel R a b) :
    (a = none ∧ b = none) ∨ ∃ x y, a = some x ∧ b = some y ∧ R x y := by
  cases h with
  | none => exact .inl ⟨rfl, rfl⟩
  | some h => exact .inr ⟨_, _, rfl, rfl, h⟩

theorem eq_some_of_rel {a : Option α} {b : Option β} {x : α} (h : Option.Rel R a b)
    (ha : a = some x) : ∃ y, b = some y ∧ R x y := by
  subst ha
  cases h with
  | some h => exact ⟨_, rfl, h⟩

theorem eq_none_of_rel {a : Option α} {b : Option β} (h : Option.Rel R a b) (ha : a = none) :
    b = none := by
  subst ha
  cases h with
  | none => rfl

theorem rel_imp {S : α → β → Prop} {a : Option α} {b : Option β} (hRS : ∀ x y, R x y → S x y)
    (h : Option.Rel R a b) : Option.Rel S a b := by
  cases h with
  | none => exact .none
  | some h => exact .some (hRS _ _ h)

/-- Each member of the second list has a partner in the first. -/
theorem exists_mem_of_forall₂ (h : List.Forall₂ R as bs) {b : β} (hb : b ∈ bs) :
    ∃ a ∈ as, R a b := by
  induction h with
  | nil => cases hb
  | cons hfirst _ ih =>
    rcases List.mem_cons.mp hb with rfl | hb
    · exact ⟨_, List.mem_cons_self, hfirst⟩
    · obtain ⟨a, ha, hab⟩ := ih hb
      exact ⟨a, List.mem_cons_of_mem _ ha, hab⟩

theorem forall₂_of_mapM {f : α → Option β} (h : as.mapM f = some bs) :
    List.Forall₂ (fun a b => f a = some b) as bs := by
  induction as generalizing bs with
  | nil =>
    obtain rfl : bs = [] := (Option.some.inj h).symm
    exact .nil
  | cons a as ih =>
    simp only [List.mapM_cons, Option.bind_eq_bind, Option.bind_eq_some_iff, Option.pure_def,
      Option.some.injEq] at h
    obtain ⟨b, hb, rest, hrest, rfl⟩ := h
    exact .cons hb (ih hrest)

theorem rel_getElem? (h : List.Forall₂ R as bs) (i : Nat) : Option.Rel R as[i]? bs[i]? := by
  induction h generalizing i with
  | nil => exact .none
  | cons hfirst _ ih =>
    cases i with
    | zero => exact .some hfirst
    | succ i => simpa using ih i

theorem forall₂_of_getElem? (h : ∀ i : Nat, Option.Rel R as[i]? bs[i]?) : List.Forall₂ R as bs := by
  induction as generalizing bs with
  | nil =>
    have hnil : bs[0]? = none := eq_none_of_rel (h 0) rfl
    rw [List.length_eq_zero_iff.mp (Nat.le_zero.mp (List.getElem?_eq_none_iff.mp hnil))]
    exact .nil
  | cons a as ih =>
    obtain ⟨b, hb, hab⟩ := eq_some_of_rel (h 0) rfl
    cases bs with
    | nil => cases hb
    | cons b' bs =>
      obtain rfl := Option.some.inj hb
      exact .cons hab (ih fun i => by simpa using h (i + 1))

/-- The first member that a test finds is related to the one that an equivalent test finds. -/
theorem rel_find? {p : α → Bool} {q : β → Bool} (hpq : ∀ a b, R a b → q b = p a)
    (h : List.Forall₂ R as bs) : Option.Rel R (as.find? p) (bs.find? q) := by
  induction h with
  | nil => exact .none
  | @cons a b as bs hfirst _ ih =>
    rw [List.find?_cons, List.find?_cons, hpq a b hfirst]
    cases p a with
    | true => exact .some hfirst
    | false => exact ih

theorem map_eq_of_forall₂ {γ : Type} {f : α → γ} {g : β → γ} (h : List.Forall₂ R as bs)
    (hfg : ∀ a b, R a b → f a = g b) : as.map f = bs.map g := by
  induction h with
  | nil => rfl
  | cons hfirst _ ih => rw [List.map_cons, List.map_cons, hfg _ _ hfirst, ih]

theorem forall₂_set (h : List.Forall₂ R as bs) (i : Nat) {a : α} {b : β} (hab : R a b) :
    List.Forall₂ R (as.set i a) (bs.set i b) := by
  induction h generalizing i with
  | nil => exact .nil
  | cons hfirst hrest ih =>
    cases i with
    | zero => exact .cons hab hrest
    | succ i => exact .cons hfirst (ih i)

/-- A member of the first list may be changed alone if it stays related to its partner. -/
theorem forall₂_set_left (h : List.Forall₂ R as bs) {i : Nat} {a : α} {b : β} (hb : bs[i]? = some b)
    (hab : R a b) : List.Forall₂ R (as.set i a) bs := by
  induction h generalizing i with
  | nil => exact .nil
  | cons hfirst hrest ih =>
    cases i with
    | zero =>
      obtain rfl : _ = b := by simpa using hb
      exact .cons hab hrest
    | succ i => exact .cons hfirst (ih (by simpa using hb))

end CSubset
