import CSubset.Proofs.Tree.Induction
import Mathlib.Data.List.Nodup
import Mathlib.Data.List.ReduceOption

/-!
# The nodes of a tree

A node is reached from the root along a path, which says for each node on the way which of its
children comes next (`Tree.at?`). The nodes can also be listed, children before their parent and
from left to right (`Tree.postorder`); a tree stands in the list once for each path to it. So if a
list of labels has no duplicates, a label tells the path (`Tree.path_unique`).
-/

namespace CSubset.Tree

variable {σ τ : Type} {path : List Nat}

/-- The places for children, from left to right. -/
def children : Tree σ → List (Option (Tree σ))
  | .leaf _ _ => []
  | .seq _ _ items => items
  | .unary _ _ child => [child]
  | .binary _ _ left right => [left, right]
  | .ternary _ _ first second third => [first, second, third]

/-- The node at the end of a path. -/
def at? : Tree σ → List Nat → Option (Tree σ)
  | t, [] => some t
  | t, i :: path => t.children[i]?.join.bind (at? · path)

mutual

/-- All nodes, children before their parent. -/
def postorder : Tree σ → List (Tree σ)
  | .leaf l form => [.leaf l form]
  | .seq l form items => postorderItems items ++ [.seq l form items]
  | .unary l form child => postorderChild child ++ [.unary l form child]
  | .binary l form left right =>
    postorderChild left ++ postorderChild right ++ [.binary l form left right]
  | .ternary l form first second third =>
    postorderChild first ++ postorderChild second ++ postorderChild third ++
      [.ternary l form first second third]

def postorderChild : Option (Tree σ) → List (Tree σ)
  | none => []
  | some t => postorder t

def postorderItems : List (Option (Tree σ)) → List (Tree σ)
  | [] => []
  | t :: ts => postorderChild t ++ postorderItems ts

end

theorem postorderItems_eq (items : List (Option (Tree σ))) :
    postorderItems items = items.flatMap postorderChild := by
  induction items with
  | nil => rfl
  | cons c items ih => rw [postorderItems, ih, List.flatMap_cons]

theorem postorder_eq (t : Tree σ) : t.postorder = t.children.flatMap postorderChild ++ [t] := by
  rw [← postorderItems_eq]
  cases t <;> simp [postorder, children, postorderItems]

/-- The children that are there have all the nodes. -/
theorem flatMap_postorderChild (items : List (Option (Tree σ))) :
    items.flatMap postorderChild = items.reduceOption.flatMap postorder := by
  induction items with
  | nil => rfl
  | cons c items ih =>
    rw [List.flatMap_cons, ih]
    cases c with
    | none => rw [List.reduceOption_cons_of_none]; rfl
    | some t => rw [List.reduceOption_cons_of_some, List.flatMap_cons]; rfl

theorem mem_postorder_self (t : Tree σ) : t ∈ t.postorder := by
  rw [postorder_eq]
  exact List.mem_append_right _ List.mem_cons_self

theorem at?_cons {t u : Tree σ} {i : Nat} :
    t.at? (i :: path) = some u ↔ ∃ c, t.children[i]? = some (some c) ∧ c.at? path = some u := by
  rw [at?, Option.bind_eq_some_iff]
  exact exists_congr fun c => and_congr_left fun _ => Option.join_eq_some_iff

theorem mem_postorder_of_at {t u : Tree σ} (h : t.at? path = some u) : u ∈ t.postorder := by
  induction path generalizing t with
  | nil =>
    obtain rfl := Option.some.inj h
    exact mem_postorder_self t
  | cons i path ih =>
    obtain ⟨c, hc, hu⟩ := at?_cons.mp h
    rw [postorder_eq, List.mem_append, List.mem_flatMap]
    exact .inl ⟨some c, List.mem_of_getElem? hc, ih hu⟩

/-- What each tree has if its children have it, all trees have. -/
theorem ind_children {motive : Tree σ → Prop}
    (h : ∀ t : Tree σ, (∀ c, some c ∈ t.children → motive c) → motive t) (t : Tree σ) :
    motive t := by
  induction t using Tree.ind with
  | leaf l form => exact h _ nofun
  | seq l form items ih => exact h _ ih
  | unary l form child ih _ => exact h _ fun c hc => ih c (List.mem_singleton.mp hc).symm
  | binary l form left right ihl ihr =>
    refine h _ fun c hc => ?_
    rcases List.mem_cons.mp hc with hc | hc
    · exact ihl c hc.symm
    · exact ihr c (List.mem_singleton.mp hc).symm
  | ternary l form first second third ih₁ ih₂ ih₃ =>
    refine h _ fun c hc => ?_
    rcases List.mem_cons.mp hc with hc | hc
    · exact ih₁ c hc.symm
    rcases List.mem_cons.mp hc with hc | hc
    · exact ih₂ c hc.symm
    · exact ih₃ c (List.mem_singleton.mp hc).symm

theorem mem_postorder_iff {t u : Tree σ} :
    u ∈ t.postorder ↔ u = t ∨ ∃ c, some c ∈ t.children ∧ u ∈ c.postorder := by
  rw [postorder_eq, List.mem_append, List.mem_singleton, flatMap_postorderChild,
    List.mem_flatMap, or_comm]
  simp only [List.reduceOption_mem_iff]

theorem mem_postorder_of_child {t c u : Tree σ} (hc : some c ∈ t.children) (hu : u ∈ c.postorder) :
    u ∈ t.postorder :=
  mem_postorder_iff.mpr (.inr ⟨c, hc, hu⟩)

/-- The nodes are those at the ends of paths. -/
theorem mem_postorder_iff_at {t u : Tree σ} : u ∈ t.postorder ↔ ∃ path, t.at? path = some u := by
  refine ⟨?_, fun ⟨_, h⟩ => mem_postorder_of_at h⟩
  induction t using ind_children with
  | h t ih =>
    intro hu
    rcases mem_postorder_iff.mp hu with rfl | ⟨c, hc, hu⟩
    · exact ⟨[], rfl⟩
    · obtain ⟨i, hi⟩ := List.mem_iff_getElem?.mp hc
      obtain ⟨path, hpath⟩ := ih c hc hu
      exact ⟨i :: path, at?_cons.mpr ⟨c, hi, hpath⟩⟩

theorem mapChild_eq_map (f : σ → τ) (c : Option (Tree σ)) : mapChild f c = c.map (map f) := by
  cases c <;> rfl

theorem mapItems_eq_map (f : σ → τ) (items : List (Option (Tree σ))) :
    mapItems f items = items.map (mapChild f) := by
  induction items with
  | nil => rfl
  | cons c items ih => rw [mapItems, ih, List.map_cons]

theorem children_map (f : σ → τ) (t : Tree σ) :
    (t.map f).children = t.children.map (mapChild f) := by
  cases t with
  | seq l form items => exact mapItems_eq_map f items
  | _ => rfl

/-- Other labels make no other order. -/
theorem postorder_map (f : σ → τ) (t : Tree σ) : (t.map f).postorder = t.postorder.map (map f) := by
  induction t using ind_children with
  | h t ih =>
    rw [postorder_eq, postorder_eq t, children_map, List.map_append, List.flatMap_map,
      List.map_flatMap]
    refine congrArg (· ++ [t.map f]) (List.flatMap_congr fun c hc => ?_)
    cases c with
    | none => rfl
    | some c => exact ih c hc

section Unique

variable {f : Tree σ → τ} {i : Nat} {path : List Nat}

/-- Trees in different places have no value in common. -/
theorem place_unique {items : List (Option (Tree σ))}
    (h : ((items.flatMap postorderChild).map f).Nodup) {j : Nat} {t u m n : Tree σ}
    (ht : items[i]? = some (some t)) (hu : items[j]? = some (some u)) (hm : m ∈ t.postorder)
    (hn : n ∈ u.postorder) (heq : f m = f n) : i = j := by
  rw [List.map_flatMap, List.nodup_flatMap] at h
  have hdisjoint := List.pairwise_iff_getElem.mp h.2
  obtain ⟨hi, ht⟩ := List.getElem?_eq_some_iff.mp ht
  obtain ⟨hj, hu⟩ := List.getElem?_eq_some_iff.mp hu
  have hm : f m ∈ (postorderChild items[i]).map f := by
    rw [ht]
    exact List.mem_map_of_mem hm
  have hn : f m ∈ (postorderChild items[j]).map f := by
    rw [hu, heq]
    exact List.mem_map_of_mem hn
  rcases Nat.lt_trichotomy i j with hlt | hij | hlt
  · exact absurd hn (hdisjoint i j hi hj hlt hm)
  · exact hij
  · exact absurd hm (hdisjoint j i hj hi hlt hn)

/-- The value of a node does not occur below it. -/
theorem value_ne_below {t n : Tree σ} (h : (t.postorder.map f).Nodup)
    (hn : t.at? (i :: path) = some n) : f n ≠ f t := by
  obtain ⟨c, hc, hn⟩ := at?_cons.mp hn
  rw [postorder_eq, List.map_append, List.nodup_append] at h
  refine h.2.2 (f n) (List.mem_map_of_mem ?_) (f t) List.mem_cons_self
  exact List.mem_flatMap.mpr ⟨some c, List.mem_of_getElem? hc, mem_postorder_of_at hn⟩

/-- Where no value occurs twice, it tells the path to a node. -/
theorem path_unique {t m n : Tree σ} (h : (t.postorder.map f).Nodup) {path' : List Nat}
    (hm : t.at? path = some m) (hn : t.at? path' = some n) (heq : f m = f n) : path = path' := by
  induction path generalizing t path' with
  | nil =>
    obtain rfl := Option.some.inj hm
    cases path' with
    | nil => rfl
    | cons j path' => exact absurd heq.symm (value_ne_below h hn)
  | cons i path ih =>
    cases path' with
    | nil =>
      obtain rfl := Option.some.inj hn
      exact absurd heq (value_ne_below h hm)
    | cons j path' =>
      rw [postorder_eq, List.map_append, List.nodup_append] at h
      obtain ⟨c, hc, hm⟩ := at?_cons.mp hm
      obtain ⟨d, hd, hn⟩ := at?_cons.mp hn
      obtain rfl := place_unique h.1 hc hd (mem_postorder_of_at hm) (mem_postorder_of_at hn) heq
      obtain rfl : c = d := by simpa [hc] using hd
      have hchild : (c.postorder.map f).Nodup := by
        have hall := h.1
        rw [List.map_flatMap, List.nodup_flatMap] at hall
        exact hall.1 (some c) (List.mem_of_getElem? hc)
      rw [ih hchild hm hn]

end Unique

end CSubset.Tree
