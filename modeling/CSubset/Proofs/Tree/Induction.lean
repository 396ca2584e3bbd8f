import CSubset.Tree

/-!
# Induction on trees

The children of a node stand in options and lists; `Tree.ind` hands a proof the hypothesis for each
child that is there, so that every proof about trees has five cases. The arguments of a call are the
children of its only child, so a node with one child gets the hypothesis for these as well.
-/

namespace CSubset

variable {σ : Type}

@[elab_as_elim]
theorem Tree.ind {motive : Tree σ → Prop} (leaf : ∀ l form, motive (.leaf l form))
    (seq : ∀ l form items, (∀ t, some t ∈ items → motive t) → motive (.seq l form items))
    (unary : ∀ l form child, (∀ t, child = some t → motive t) →
      (∀ l' form' items, child = some (.seq l' form' items) → ∀ t, some t ∈ items → motive t) →
      motive (.unary l form child))
    (binary : ∀ l form left right, (∀ t, left = some t → motive t) →
      (∀ t, right = some t → motive t) → motive (.binary l form left right))
    (ternary : ∀ l form first second third, (∀ t, first = some t → motive t) →
      (∀ t, second = some t → motive t) → (∀ t, third = some t → motive t) →
      motive (.ternary l form first second third)) (t : Tree σ) : motive t := by
  -- the recursor with a motive that also covers the members of a list node
  have hboth : motive t ∧ ∀ l form items, t = .seq l form items →
      ∀ u, some u ∈ items → motive u := by
    refine @Tree.rec σ (fun t => motive t ∧ ∀ l form items, t = .seq l form items →
      ∀ u, some u ∈ items → motive u)
      (fun items => ∀ t, some t ∈ items → motive t)
      (fun child => ∀ t, child = some t →
        motive t ∧ ∀ l form items, t = .seq l form items → ∀ u, some u ∈ items → motive u)
      ?leaf ?seq ?unary ?binary ?ternary ?nil ?cons ?none ?some t
    case leaf => exact fun l form => ⟨leaf l form, by simp⟩
    case seq =>
      intro l form items ih
      refine ⟨seq l form items ih, ?_⟩
      rintro _ _ _ ⟨⟩
      exact ih
    case unary =>
      intro l form child ih
      exact ⟨unary l form child (fun t ht => (ih t ht).1) fun l' form' items ht =>
        (ih _ ht).2 _ _ _ rfl, by simp⟩
    case binary =>
      exact fun l form left right ihl ihr =>
        ⟨binary l form left right (fun t ht => (ihl t ht).1) fun t ht => (ihr t ht).1, by simp⟩
    case ternary =>
      exact fun l form first second third ih₁ ih₂ ih₃ =>
        ⟨ternary l form first second third (fun t ht => (ih₁ t ht).1) (fun t ht => (ih₂ t ht).1)
          fun t ht => (ih₃ t ht).1, by simp⟩
    case nil => simp
    case none => simp
    case cons =>
      intro item items hitem hitems t ht
      rcases List.mem_cons.mp ht with h | h
      · exact (hitem t h.symm).1
      · exact hitems t h
    case some =>
      intro t ht u hu
      exact Option.some.inj hu ▸ ht
  exact hboth.1

/-- The forms of nodes with two children that are no expressions. -/
def BinaryForm.isStatement : BinaryForm → Bool
  | .declaration | .forward | .ifThen | .while => true
  | _ => false

/-! ## Equality

Trees can be compared if their labels can, so that facts about the trees of a given text are decided
by evaluation. -/

namespace Tree

variable [DecidableEq σ]

mutual

/-- Whether two trees are equal. -/
def same : Tree σ → Tree σ → Bool
  | .leaf l form, .leaf l' form' => l = l' && form = form'
  | .seq l form items, .seq l' form' items' => l = l' && form = form' && sameItems items items'
  | .unary l form child, .unary l' form' child' => l = l' && form = form' && sameChild child child'
  | .binary l form left right, .binary l' form' left' right' =>
    l = l' && form = form' && sameChild left left' && sameChild right right'
  | .ternary l form first second third, .ternary l' form' first' second' third' =>
    l = l' && form = form' && sameChild first first' && sameChild second second' &&
      sameChild third third'
  | _, _ => false

def sameChild : Option (Tree σ) → Option (Tree σ) → Bool
  | none, none => true
  | some t, some u => same t u
  | _, _ => false

def sameItems : List (Option (Tree σ)) → List (Option (Tree σ)) → Bool
  | [], [] => true
  | t :: ts, u :: us => sameChild t u && sameItems ts us
  | _, _ => false

end

theorem sameChild_iff {c d : Option (Tree σ)}
    (hc : ∀ t, c = some t → ∀ u, same t u = true ↔ t = u) : sameChild c d = true ↔ c = d := by
  rcases c with _ | t <;> rcases d with _ | u <;> simp [sameChild, hc]

theorem sameItems_iff {cs ds : List (Option (Tree σ))}
    (hcs : ∀ t, some t ∈ cs → ∀ u, same t u = true ↔ t = u) :
    sameItems cs ds = true ↔ cs = ds := by
  induction cs generalizing ds with
  | nil => cases ds <;> simp [sameItems]
  | cons c cs ih =>
    cases ds with
    | nil => simp [sameItems]
    | cons d ds =>
      have hfirst := sameChild_iff (d := d) fun t ht => hcs t (ht ▸ List.mem_cons_self)
      have hrest := @ih ds fun t ht => hcs t (List.mem_cons_of_mem _ ht)
      rw [sameItems, Bool.and_eq_true, hfirst, hrest, List.cons_eq_cons]

theorem same_iff {t u : Tree σ} : same t u = true ↔ t = u := by
  induction t using Tree.ind generalizing u with
  | leaf l form => cases u <;> simp [same]
  | seq l form items ih =>
    cases u <;> simp [same, sameItems_iff fun t ht u => ih t ht, and_assoc]
  | unary l form child ih =>
    cases u <;> simp [same, sameChild_iff fun t ht u => ih t ht, and_assoc]
  | binary l form left right ihl ihr =>
    cases u <;> simp [same, sameChild_iff fun t ht u => ihl t ht,
      sameChild_iff fun t ht u => ihr t ht, and_assoc]
  | ternary l form first second third ih₁ ih₂ ih₃ =>
    cases u <;> simp [same, sameChild_iff fun t ht u => ih₁ t ht,
      sameChild_iff fun t ht u => ih₂ t ht, sameChild_iff fun t ht u => ih₃ t ht, and_assoc]

instance : DecidableEq (Tree σ) := fun _ _ => decidable_of_iff _ same_iff

end Tree

end CSubset
