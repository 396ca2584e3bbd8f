import CSubset.Proofs.Tree.Nodes
import CSubset.Tree.Sketch

/-!
# Copies

A copy of a tree has the forms and the positions of the tree. Its nodes are new: they are appended
to the arena in post-order, each under the next index, and all that the arena held before stays
where it is (`copy_faithful`). It does not matter whether the tree is in that arena itself.

What a step appends is said by `Arena.Appends`, and what its result has to do with these nodes by
`Appending`, which goes through sequences of steps.
-/

namespace CSubset

variable {place : Nat}

/-! ## Nodes that are appended

Places in an arena are counted without end, but an index is a word. Up to `2 ^ 32` nodes the index
of a node is its place.
-/

/-- Arena `b` is `a` with the nodes `ns` after those that were there, under the indices that come
next. -/
structure Arena.Appends (a : Arena) (ns : List Node) (b : Arena) : Prop where
  generation : b.generation = a.generation
  nodes : b.nodes = a.nodes ++ ns.toArray
  ids : ns.map Node.id = (List.range' a.size ns.length).map a.idAt

theorem Arena.toNat_index_idAt (h : place < UInt32.size) (a : Arena) :
    (a.idAt place).index.toNat = place := by
  rw [idAt, UInt32.toNat_ofNat', Nat.mod_eq_of_lt h]

namespace Arena.Appends

variable {a b c : Arena} {us vs ns : List Node} {k : Nat} {n : Node}

theorem refl (a : Arena) : a.Appends [] a := ⟨rfl, by simp, rfl⟩

theorem size (h : a.Appends ns b) : b.size = a.size + ns.length := by
  simp [Arena.size, h.nodes]

theorem trans (h : a.Appends us b) (h' : b.Appends vs c) : a.Appends (us ++ vs) c where
  generation := h'.generation.trans h.generation
  nodes := by simp [h'.nodes, h.nodes]
  ids := by
    have hidAt : b.idAt = a.idAt := by
      funext place
      rw [Arena.idAt, Arena.idAt, h.generation]
    rw [List.map_append, h.ids, h'.ids, h.size, hidAt, ← List.map_append, List.range'_append_1,
      List.length_append]

end Arena.Appends

/-- Whatever the arena, the step appends nodes to it. `P` says what they have to do with the
result. -/
def Appending {α : Type} (x : Alloc α) (P : List Node → α → Prop) : Prop :=
  ∀ a : Arena, ∃ ns, a.Appends ns (x.run a).2 ∧ P ns (x.run a).1

section Appending

variable {α β : Type} {P : List Node → α → Prop} {Q : List Node → β → Prop}

theorem Appending.pure {r : α} (h : P [] r) : Appending (pure r) P := fun a => ⟨[], .refl a, h⟩

theorem Appending.bind {x : Alloc α} {k : α → Alloc β} (hx : Appending x P)
    (hk : ∀ us r, P us r → Appending (k r) fun vs => Q (us ++ vs)) : Appending (x >>= k) Q := by
  intro a
  obtain ⟨us, hus, hP⟩ := hx a
  obtain ⟨vs, hvs, hQ⟩ := hk us _ hP (x.run a).2
  exact ⟨us ++ vs, hus.trans hvs, hQ⟩

theorem appending_allocAt {P : List Node → Node → Prop} {pos : Pos} {make : Stamp → Node}
    (hlabel : ∀ stamp, (make stamp).label = stamp)
    (h : ∀ stamp : Stamp, stamp.pos = pos → P [make stamp] (make stamp)) :
    Appending (Arena.allocAt pos make) P := by
  intro a
  let stamp : Stamp := ⟨a.idAt a.size, pos⟩
  refine ⟨[make stamp], ⟨rfl, ?_, ?_⟩, h stamp rfl⟩
  · exact Array.push_eq_append
  · simp [Node.id, hlabel, stamp]

end Appending

/-! ## Copies -/

namespace Node

open CSubset.Tree

/-- The nodes `ns` are those of the copy `m` of the tree. -/
def CopiedAs (n : Node) (ns : List Node) (m : Node) : Prop :=
  ns = m.postorder ∧ m.map Stamp.pos = n.map Stamp.pos

def copyChild (child : Option Node) : Alloc (Option Node) :=
  Sketch.buildChild (mapChild (fun stamp => some stamp.pos) child)

def copyItems (items : List (Option Node)) : Alloc (List (Option Node)) :=
  Sketch.buildItems (mapItems (fun stamp => some stamp.pos) items)

theorem appending_copyChild {child : Option Node}
    (htree : ∀ n, child = some n → Appending n.copy n.CopiedAs) :
    Appending (copyChild child) fun ns c =>
      ns = postorderChild c ∧ mapChild Stamp.pos c = mapChild Stamp.pos child := by
  cases child with
  | none => exact .pure ⟨rfl, rfl⟩
  | some n =>
    refine (htree n rfl).bind fun ns m hm => .pure ?_
    rw [List.append_nil]
    exact ⟨hm.1, congrArg some hm.2⟩

theorem appending_copyItems {items : List (Option Node)}
    (htree : ∀ n, some n ∈ items → Appending n.copy n.CopiedAs) :
    Appending (copyItems items) fun ns cs =>
      ns = postorderItems cs ∧ mapItems Stamp.pos cs = mapItems Stamp.pos items := by
  induction items with
  | nil => exact .pure ⟨rfl, rfl⟩
  | cons item items ih =>
    have hfirst := appending_copyChild fun n hn => htree n (hn ▸ List.mem_cons_self)
    have hrest := ih fun n hn => htree n (List.mem_cons_of_mem _ hn)
    refine hfirst.bind fun us c hc => hrest.bind fun vs cs hcs => .pure ?_
    rw [List.append_nil, hc.1, hcs.1, mapItems, mapItems, hc.2, hcs.2]
    exact ⟨rfl, rfl⟩

theorem appending_copy (n : Node) : Appending n.copy n.CopiedAs := by
  induction n using Tree.ind with
  | leaf stamp form =>
    exact appending_allocAt (fun _ => rfl) fun stamp' hpos =>
      ⟨rfl, by rw [Tree.map, Tree.map, hpos]⟩
  | seq stamp form items ih =>
    refine (appending_copyItems ih).bind fun ns cs h => appending_allocAt (fun _ => rfl)
      fun stamp' hpos => ?_
    rw [CopiedAs, postorder, h.1, Tree.map, Tree.map, h.2, hpos]
    exact ⟨rfl, rfl⟩
  | unary stamp form child ih _ =>
    refine (appending_copyChild ih).bind fun ns c h => appending_allocAt (fun _ => rfl)
      fun stamp' hpos => ?_
    rw [CopiedAs, postorder, h.1, Tree.map, Tree.map, h.2, hpos]
    exact ⟨rfl, rfl⟩
  | binary stamp form left right ihl ihr =>
    refine (appending_copyChild ihl).bind fun ls l hl => (appending_copyChild ihr).bind
      fun rs r hr => ?_
    refine appending_allocAt (fun _ => rfl) fun stamp' hpos => ?_
    rw [CopiedAs, postorder, hl.1, hr.1, Tree.map, Tree.map, hl.2, hr.2, hpos, List.append_assoc]
    exact ⟨rfl, rfl⟩
  | ternary stamp form first second third ih₁ ih₂ ih₃ =>
    refine (appending_copyChild ih₁).bind fun fs f hf => (appending_copyChild ih₂).bind
      fun ss s hs => ?_
    refine (appending_copyChild ih₃).bind fun ts t ht => appending_allocAt (fun _ => rfl)
      fun stamp' hpos => ?_
    rw [CopiedAs, postorder, hf.1, hs.1, ht.1, Tree.map, Tree.map, hf.2, hs.2, ht.2, hpos,
      List.append_assoc, List.append_assoc]
    exact ⟨rfl, rfl⟩

theorem map_copy (n : Node) (a : Arena) : (n.copy.run a).1.map Stamp.pos = n.map Stamp.pos := by
  obtain ⟨_, -, -, hsame⟩ := n.appending_copy a
  exact hsame

theorem map_copyChild (child : Option Node) (a : Arena) :
    mapChild Stamp.pos ((copyChild child).run a).1 = mapChild Stamp.pos child := by
  obtain ⟨_, -, -, hsame⟩ := @appending_copyChild child (fun n _ => n.appending_copy) a
  exact hsame

theorem appends_copy (n : Node) (a : Arena) :
    a.Appends (n.copy.run a).1.postorder (n.copy.run a).2 := by
  obtain ⟨_, happends, rfl, -⟩ := n.appending_copy a
  exact happends

theorem map_postorder_copy (n : Node) (a : Arena) :
    (n.copy.run a).1.postorder.map (Tree.map Stamp.pos) = n.postorder.map (Tree.map Stamp.pos) := by
  rw [← postorder_map, ← postorder_map, map_copy]

theorem size_copy (n : Node) (a : Arena) : (n.copy.run a).2.size = a.size + n.postorder.length := by
  have hlength := congrArg List.length (n.map_postorder_copy a)
  rw [List.length_map, List.length_map] at hlength
  rw [(n.appends_copy a).size, hlength]

/-- The root of the copy is allocated last, at its own position. -/
theorem mark_copy (n : Node) (a : Arena) : (n.copy.run a).2.mark = n.pos := by
  cases n <;> rfl

end Node

end CSubset
