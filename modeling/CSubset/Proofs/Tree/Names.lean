import CSubset.Proofs.Execution.Tree

/-!
# Names that a tree takes from outside

A name is free in a tree if the tree mentions it, as a variable or as a function that is called,
before it declares it itself. A declaration counts for all that stands behind it in the text,
whatever the blocks it is in: for the statements behind the one that has it, and in the first branch
of an alternative also for the second. One that is skipped because it stands behind a return in its
list does not count. In the body of a function, its own name and its parameters are declared.
-/

namespace CSubset

open Execution (declaredChild)

def Leaf.mentioned : Leaf → List String
  | .names list _ => list
  | _ => []

def UnaryForm.mentioned : UnaryForm → List String
  | .call callee => [callee]
  | _ => []

namespace Tree

variable {σ : Type}

/-- The names that a signature binds in the body: the function and its parameters. -/
def bound : Option (Tree σ) → List String
  | some (.unary _ (.signature name) params) =>
    name :: ((Execution.members .parameters params).mapM Execution.paramName?).getD []
  | _ => []

mutual

def free : Tree σ → List String
  | .leaf _ form => form.mentioned
  | .seq _ .block items => freeStatements items
  | .seq _ _ items => freeItems items
  | .unary _ form child => form.mentioned ++ freeChild child
  | .binary _ .declaration _ _ => []
  | .binary _ .forward _ _ => []
  | .binary _ _ left right => freeChild left ++ freeChild right
  | .ternary _ .ifThenElse cond thenBody elseBody =>
    freeChild cond ++ (freeChild thenBody ++
      (freeChild elseBody).filter (· ∉ declaredChild false thenBody))
  | .ternary _ .definition _ signature body => (freeChild body).filter (· ∉ bound signature)

def freeChild : Option (Tree σ) → List String
  | none => []
  | some t => free t

def freeItems : List (Option (Tree σ)) → List String
  | [] => []
  | t :: ts => freeChild t ++ freeItems ts

def freeStatements : List (Option (Tree σ)) → List String
  | [] => []
  | t :: ts => freeChild t ++ (freeStatements ts).filter (· ∉ declaredChild false t)

end

theorem mem_freeItems {x : String} {t : Tree σ} {items : List (Option (Tree σ))}
    (ht : some t ∈ items) (hx : x ∈ t.free) : x ∈ freeItems items := by
  induction items with
  | nil => cases ht
  | cons c items ih =>
    rw [freeItems, List.mem_append]
    rcases List.mem_cons.mp ht with rfl | ht
    · exact .inl hx
    · exact .inr (ih ht)

/-- Declarations of variables and functions have no free names. -/
theorem free_of_kind {t : Tree σ} (h : t.kind = .forward ∨ t.kind = .declaration) :
    t.free = [] := by
  rcases t with ⟨l, form⟩ | ⟨l, form, items⟩ | ⟨l, form, child⟩ | ⟨l, form, left, right⟩ | ⟨l, form,
    first, second, third⟩
  · cases form <;> simp [Tree.kind, Leaf.kind] at h
  · cases form <;> simp [Tree.kind, SeqForm.kind] at h
  · cases form <;> simp [Tree.kind, UnaryForm.kind] at h
  · cases form <;> simp [Tree.kind, BinaryForm.kind] at h <;> rfl
  · cases form <;> simp [Tree.kind, TernaryForm.kind] at h

end Tree

end CSubset
