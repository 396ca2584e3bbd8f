import CSubset.Proofs.Folding.Reference
import CSubset.Proofs.Tree.Copying

/-!
# Folding what is folded

The folder allocates a node for each node of the tree, as copying does, also where it puts a
constant in the place of an operation (`allocates_fold`). In a tree without arithmetic on constants
there is nothing for it to do, and it makes the copy that copying makes, in the same places of the
arena (`givesCopy`). Since nothing is left to fold in a folded tree, folding it again is copying it
(`fold_idempotent`).
-/

namespace CSubset

/-- Arithmetic on two operands that have a constant value. -/
def Tree.OnConstants {σ : Type} (t : Tree σ) : Prop :=
  ∃ l op left right x y, t = .binary l (.arithmetic op) left right ∧ constantChild? left = some x ∧
    constantChild? right = some y

/-! ## How much is allocated

One lemma for each way to put steps together, then one for each function of the folder. -/

/-- If the step succeeds, it has allocated `k` nodes. -/
def Allocates {α : Type} (x : FoldM α) (k : Nat) : Prop :=
  ∀ a r b, Gives x a r b → b.size = a.size + k

/-- If the step succeeds, the last position that was marked is `pos`. -/
def Marks {α : Type} (x : FoldM α) (pos : Pos) : Prop := ∀ a r b, Gives x a r b → b.mark = pos

section

variable {α β : Type} {x : FoldM α} {f : α → FoldM β} {k l : Nat} {pos : Pos} {make : Stamp → Node}

theorem Allocates.pure {r : α} : Allocates (pure r) 0 := by
  intro a r b h
  obtain ⟨-, rfl⟩ := gives_pure.mp h
  rfl

/-- Two steps allocate what both of them do. -/
theorem Allocates.bind (hx : Allocates x k) (hf : ∀ r, Allocates (f r) l) :
    Allocates (x >>= f) (k + l) := by
  intro a r c h
  obtain ⟨r', b, hfirst, hrest⟩ := gives_bind.mp h
  rw [hf r' b r c hrest, hx a r' b hfirst, Nat.add_assoc]

/-- The last step marks last. -/
theorem Marks.bind (hf : ∀ r, Marks (f r) pos) : Marks (x >>= f) pos := by
  intro a r c h
  obtain ⟨r', b, -, hrest⟩ := gives_bind.mp h
  exact hf r' b r c hrest

theorem allocates_allocAt : Allocates (liftM (Arena.allocAt pos make) : FoldM Node) 1 := by
  intro a m b h
  obtain rfl : _ = b := congrArg Prod.snd (Node.gives_lift.mp h)
  exact Array.size_push _

theorem marks_allocAt : Marks (liftM (Arena.allocAt pos make) : FoldM Node) pos := by
  intro a m b h
  obtain rfl : _ = b := congrArg Prod.snd (Node.gives_lift.mp h)
  rfl

end

namespace Node

open CSubset.Tree

variable {n c : Node} {items : List (Option Node)}

/-- If folding arithmetic succeeds, it has allocated one node, whatever that is. -/
theorem foldArithmetic_allocAt (stamp : Stamp) (op : Coded ArithOp) (left right : Option Node) :
    ∃ make, ∀ a m b, Gives (foldArithmetic stamp op left right) a m b →
      Gives (liftM (Arena.allocAt stamp.pos make) : FoldM Node) a m b := by
  unfold foldArithmetic
  split
  · split
    · next v _ => exact ⟨(.leaf · (.intConst v)), fun _ _ _ h => h⟩
    · -- it does not succeed, so any node will do
      refine ⟨(.leaf · (.intConst 0)), fun a m b h => ?_⟩
      obtain ⟨_, _, -, hthrow⟩ := gives_bind.mp h
      exact absurd hthrow gives_throw
  · exact ⟨(.binary · (.arithmetic op) left right), fun _ _ _ h => h⟩

theorem allocates_foldArithmetic (stamp : Stamp) (op : Coded ArithOp) (left right : Option Node) :
    Allocates (foldArithmetic stamp op left right) 1 := by
  obtain ⟨make, hmake⟩ := foldArithmetic_allocAt stamp op left right
  exact fun a m b h => allocates_allocAt a m b (hmake a m b h)

theorem marks_foldArithmetic (stamp : Stamp) (op : Coded ArithOp) (left right : Option Node) :
    Marks (foldArithmetic stamp op left right) stamp.pos := by
  obtain ⟨make, hmake⟩ := foldArithmetic_allocAt stamp op left right
  exact fun a m b h => marks_allocAt a m b (hmake a m b h)

/-- A missing child takes no node. -/
theorem allocates_foldChild {child : Option Node}
    (htree : ∀ n, child = some n → Allocates n.fold n.postorder.length) :
    Allocates (foldChild child) (postorderChild child).length := by
  cases child with
  | none => exact .pure
  | some n => exact (htree n rfl).bind fun m => .pure

theorem allocates_foldItems
    (htree : ∀ n, some n ∈ items → Allocates n.fold n.postorder.length) :
    Allocates (foldItems items) (postorderItems items).length := by
  induction items with
  | nil => exact .pure
  | cons item items ih =>
    have hfirst := allocates_foldChild fun n hn => htree n (hn ▸ List.mem_cons_self)
    have hrest := ih fun n hn => htree n (List.mem_cons_of_mem _ hn)
    rw [postorderItems, List.length_append]
    exact hfirst.bind fun c => hrest.bind fun cs => .pure

/-- The nodes of a tree are as many as its postorder has: folding allocates one for each, whatever
it puts there. -/
theorem allocates_fold (n : Node) : Allocates n.fold n.postorder.length := by
  induction n using Tree.ind with
  | leaf stamp form => exact allocates_allocAt
  | seq stamp form items ih =>
    rw [fold, postorder, List.length_append]
    exact (allocates_foldItems ih).bind fun _ => allocates_allocAt
  | unary stamp form child ih _ =>
    rw [fold, postorder, List.length_append]
    exact (allocates_foldChild ih).bind fun _ => allocates_allocAt
  | binary stamp form left right ihl ihr =>
    -- the operator takes one node, as itself or as the number it is folded to
    rw [fold, postorder, List.length_append, List.length_append, Nat.add_assoc]
    refine (allocates_foldChild ihl).bind fun l => (allocates_foldChild ihr).bind fun r => ?_
    split
    · next op => exact allocates_foldArithmetic stamp op l r
    · exact allocates_allocAt
  | ternary stamp form first second third ih₁ ih₂ ih₃ =>
    rw [fold, postorder, List.length_append, List.length_append, List.length_append,
      Nat.add_assoc, Nat.add_assoc]
    refine (allocates_foldChild ih₁).bind fun _ => (allocates_foldChild ih₂).bind fun _ => ?_
    exact (allocates_foldChild ih₃).bind fun _ => allocates_allocAt

/-- The root is made last, so its position stays marked. -/
theorem marks_fold (n : Node) : Marks n.fold n.pos := by
  cases n with
  | leaf stamp form => exact marks_allocAt
  | seq stamp form items => exact .bind fun _ => marks_allocAt
  | unary stamp form child => exact .bind fun _ => marks_allocAt
  | binary stamp form left right =>
    refine .bind fun l => .bind fun r => ?_
    split
    · next op => exact marks_foldArithmetic stamp op l r
    · exact marks_allocAt
  | ternary stamp form first second third =>
    exact .bind fun _ => .bind fun _ => .bind fun _ => marks_allocAt

/-! ## Where there is nothing to fold

The folder looks at the copies of the operands and not at the operands, so copying is followed
through the arena. -/

/-- Folding makes the copy that copying makes, and leaves the same arena. -/
def GivesCopy (n : Node) : Prop := ∀ a, Gives n.fold a (n.copy.run a).1 (n.copy.run a).2

/-- A child is copied if its tree is. -/
theorem gives_copyChild {child : Option Node} (htree : ∀ n, child = some n → GivesCopy n)
    (a : Arena) :
    Gives (foldChild child) a ((copyChild child).run a).1 ((copyChild child).run a).2 := by
  cases child with
  | none => exact gives_pure.mpr ⟨rfl, rfl⟩
  | some n => exact gives_bind.mpr ⟨_, _, htree n rfl a, gives_pure.mpr ⟨rfl, rfl⟩⟩

theorem gives_copyItems (htree : ∀ n, some n ∈ items → GivesCopy n) (a : Arena) :
    Gives (foldItems items) a ((copyItems items).run a).1 ((copyItems items).run a).2 := by
  induction items generalizing a with
  | nil => exact gives_pure.mpr ⟨rfl, rfl⟩
  | cons item items ih =>
    have hfirst := gives_copyChild fun n hn => htree n (hn ▸ List.mem_cons_self)
    have hrest := ih fun n hn => htree n (List.mem_cons_of_mem _ hn)
    exact gives_bind.mpr ⟨_, _, hfirst a, gives_bind.mpr ⟨_, _, hrest _, gives_pure.mpr ⟨rfl, rfl⟩⟩⟩

/-- The copy of a child is a number only if the child is one. -/
theorem literal?_copyChild (child : Option Node) (a : Arena) :
    literal? ((copyChild child).run a).1 = literal? child := by
  rw [← literal?_mapChild Stamp.pos, map_copyChild, literal?_mapChild]

/-- A number has itself as its constant value. -/
theorem literal?_of_constantChild? {child : Option Node} (h : constantChild? child = none) :
    literal? child = none := by
  cases hx : literal? child with
  | none => rfl
  | some x =>
    obtain ⟨l, rfl⟩ := literal?_eq_some.mp hx
    cases h

/-- No node of the tree is arithmetic on constants. -/
def Settled (n : Node) : Prop := ∀ u ∈ n.postorder, ¬u.OnConstants

/-- The nodes of a child are nodes of the tree. -/
theorem Settled.child (h : n.Settled) (hc : some c ∈ n.children) : c.Settled :=
  fun u hu => h u (mem_postorder_of_child hc hu)

/-- Arithmetic in a settled tree has an operand that is no number. -/
theorem Settled.not_literal {stamp : Stamp} {op : Coded ArithOp} {left right : Option Node}
    (h : Settled (.binary stamp (.arithmetic op) left right)) :
    literal? left = none ∨ literal? right = none := by
  cases hl : constantChild? left with
  | none => exact .inl (literal?_of_constantChild? hl)
  | some x =>
    cases hr : constantChild? right with
    | none => exact .inr (literal?_of_constantChild? hr)
    | some y =>
      exact absurd ⟨stamp, op, left, right, x, y, rfl, hl, hr⟩ (h _ (mem_postorder_self _))

/-- Where nothing can be folded, the folder and the copier go the same way through the tree. -/
theorem givesCopy (h : n.Settled) : GivesCopy n := by
  induction n using Tree.ind with
  | leaf stamp form => exact fun a => gives_lift.mpr rfl
  | seq stamp form items ih =>
    intro a
    have hitems := gives_copyItems (fun n hn => ih n hn (h.child hn)) a
    exact gives_bind.mpr ⟨_, _, hitems, gives_lift.mpr rfl⟩
  | unary stamp form child ih _ =>
    intro a
    have hchild := gives_copyChild (fun n hn => ih n hn (h.child (by simp [children, hn]))) a
    exact gives_bind.mpr ⟨_, _, hchild, gives_lift.mpr rfl⟩
  | binary stamp form left right ihl ihr =>
    intro a
    have hleft := gives_copyChild (fun n hn => ihl n hn (h.child (by simp [children, hn]))) a
    -- the right child is copied to the arena that the left one leaves
    have hright := gives_copyChild (fun n hn => ihr n hn (h.child (by simp [children, hn])))
      ((copyChild left).run a).2
    refine gives_bind.mpr ⟨_, _, hleft, gives_bind.mpr ⟨_, _, hright, ?_⟩⟩
    split
    · next op =>
      -- the folder looks at the copies of the operands, and these are literals only where the
      -- operands are
      have hcopies := h.not_literal
      rw [← literal?_copyChild left a, ← literal?_copyChild right
        ((copyChild left).run a).2] at hcopies
      rw [foldArithmetic_of_not_literal stamp hcopies]
      exact gives_lift.mpr rfl
    · exact gives_lift.mpr rfl
  | ternary stamp form first second third ih₁ ih₂ ih₃ =>
    intro a
    have hfirst := gives_copyChild (fun n hn => ih₁ n hn (h.child (by simp [children, hn]))) a
    have hsecond := gives_copyChild (fun n hn => ih₂ n hn (h.child (by simp [children, hn])))
      ((copyChild first).run a).2
    have hthird := gives_copyChild (fun n hn => ih₃ n hn (h.child (by simp [children, hn])))
      ((copyChild second).run ((copyChild first).run a).2).2
    refine gives_bind.mpr
      ⟨_, _, hfirst, gives_bind.mpr ⟨_, _, hsecond, gives_bind.mpr ⟨_, _, hthird, ?_⟩⟩⟩
    exact gives_lift.mpr rfl

/-- The nodes of a tree are those that paths lead to. -/
theorem settled_iff : n.Settled ↔ ∀ path u, n.at? path = some u → ¬u.OnConstants := by
  constructor
  · intro h path u hu
    exact h u (mem_postorder_of_at hu)
  · intro h u hu
    obtain ⟨path, hpath⟩ := mem_postorder_iff_at.mp hu
    exact h path u hpath

/-- If the tree can be folded, this allocates a node for each of its nodes and leaves its position
marked, as copying does. Where no node is arithmetic on constants, folding and copying are the
same. -/
theorem fold_agrees_with_copy (n : Node) (a : Arena) :
    (∀ m b, n.fold.run.run a = (.ok m, b) →
      b.size = (n.copy.run a).2.size ∧ b.size = a.size + n.postorder.length ∧
        b.mark = (n.copy.run a).2.mark ∧ b.mark = n.pos) ∧
    ((∀ path u, n.at? path = some u → ¬u.OnConstants) →
      n.fold.run.run a = (.ok (n.copy.run a).1, (n.copy.run a).2)) := by
  constructor
  · intro m b h
    have hsize := n.allocates_fold a m b h
    have hmark := n.marks_fold a m b h
    exact ⟨hsize.trans (n.size_copy a).symm, hsize, hmark.trans (n.mark_copy a).symm, hmark⟩
  · exact fun h => givesCopy (settled_iff.mpr h) a

/-- `return x - 1;`: only one of the operands has a constant value. -/
def decrement : Node :=
  let stamp (i : Nat) : Stamp := ⟨⟨0, .ofNat i⟩, ⟨1, i + 1⟩⟩
  .unary (stamp 3) .ret
    (some (.binary (stamp 2) (.arithmetic (.known .sub)) (some (.leaf (stamp 0) (.names ["x"] 0)))
    (some (.leaf (stamp 1) (.intConst 1)))))

theorem decrement_folds_as_copied :
    (∀ path u, decrement.at? path = some u → ¬u.OnConstants) ∧
      ∃ b, decrement.fold.run.run (Arena.empty 1) =
        (.ok (decrement.copy.run (Arena.empty 1)).1, b) ∧ b.size = 4 ∧
        b.mark = ⟨1, 4⟩ := by
  have hsettled : decrement.Settled := by
    rintro u hu ⟨l, op, left, right, x, y, rfl, hx, hy⟩
    simp only [decrement, postorder, postorderChild, List.cons_append, List.nil_append,
      List.mem_cons, reduceCtorEq, Tree.binary.injEq, List.not_mem_nil, or_false, false_or] at hu
    obtain ⟨-, -, rfl, -⟩ := hu
    cases hx
  have hnone := settled_iff.mp hsettled
  obtain ⟨hcounts, hcopies⟩ := fold_agrees_with_copy decrement (Arena.empty 1)
  obtain ⟨-, hsize, -, hmark⟩ := hcounts _ _ (hcopies hnone)
  exact ⟨hnone, _, hcopies hnone, hsize, hmark⟩

/-! ## Folding again

A folded tree has no arithmetic on literals (`Irreducible`), and so it is settled. -/

theorem Irreducible.child (h : n.Irreducible) (hc : some c ∈ n.children) : c.Irreducible :=
  fun u hu => h u (mem_postorder_of_child hc hu)

/-- Without arithmetic on constants, only a literal has a constant value. -/
theorem Settled.literal {c : Option Node} (h : ∀ n, c = some n → n.Settled) {v : Int32}
    (hv : constantChild? c = some v) : ∃ l, c = some (.leaf l (.intConst v)) := by
  cases c with
  | none => cases hv
  | some n =>
    rw [constantChild?] at hv
    unfold constant? at hv
    split at hv
    · next l w => exact ⟨l, by rw [Option.some.inj hv]⟩
    · next l op left right =>
      obtain ⟨x, hx, hv⟩ := Option.bind_eq_some_iff.mp hv
      obtain ⟨y, hy, -⟩ := Option.bind_eq_some_iff.mp hv
      exact absurd ⟨l, op, left, right, x, y, rfl, hx, hy⟩ (h _ rfl _ (mem_postorder_self _))
    · cases hv

/-- Where no arithmetic on literals is left, none on constants is: the lowest one would have
literals as operands. -/
theorem Irreducible.settled (h : n.Irreducible) : n.Settled := by
  induction n using ind_children with
  | h n ih =>
    have hchild (c : Node) (hc : some c ∈ n.children) : c.Settled := ih c hc (h.child hc)
    intro u hu
    rcases mem_postorder_iff.mp hu with rfl | ⟨c, hc, hu⟩
    · -- both operands would be literals, and nothing is left to fold
      rintro ⟨l, op, left, right, x, y, rfl, hx, hy⟩
      obtain ⟨l₁, rfl⟩ := Settled.literal (fun c hc => hchild c (by simp [children, hc])) hx
      obtain ⟨l₂, rfl⟩ := Settled.literal (fun c hc => hchild c (by simp [children, hc])) hy
      exact h _ (mem_postorder_self _) ⟨l, op, l₁, x, l₂, y, rfl⟩
    · exact hchild c hc u hu

/-- What is folded is copied when it is folded again. -/
theorem Folded.givesCopy {m : Node} (h : Folded n m) : GivesCopy m :=
  Node.givesCopy h.irreducible.settled

end Node

/-- A file that is the result of folding can be folded again, and this keeps its tree, with all
positions. -/
theorem File.fold_idempotent {generation : UInt32} {f g : File} (h : f.fold generation = .ok g)
    (generation' : UInt32) :
    ∃ g', g.fold generation' = .ok g' ∧ g'.name = g.name ∧
      g'.root.map (Tree.map Stamp.pos) = g.root.map (Tree.map Stamp.pos) := by
  have hcopy (m : Node) (hm : g.root = some m) : m.GivesCopy := by
    rcases rel_cases (Node.rel_of_fold h) with ⟨-, hnone⟩ | ⟨n, m', -, hm', hfolded⟩
    · cases hm.symm.trans hnone
    · exact Option.mem_unique hm' hm ▸ hfolded.givesCopy
  let copied := (Node.copyChild g.root).run (Arena.empty generation')
  have hrun : (Node.foldChild g.root).run.run (Arena.empty generation') =
      (.ok copied.1, copied.2) :=
    Node.gives_copyChild hcopy _
  refine ⟨⟨g.name, copied.2, copied.1⟩, ?_, rfl, ?_⟩
  · unfold File.fold
    rw [hrun]
  · rw [← Tree.mapChild_eq_map, Node.map_copyChild, Tree.mapChild_eq_map]

/-- Constants on both sides of a sum; the product stays, since one of its operands has no constant
value. -/
def partlyConstant : List Char := "int f(int x) { return (7 / 2 - 1) * x + (2 + 3); }".toList

theorem partlyConstant_folds_again :
    ∃ f g g', File.parse 0 "a.c" partlyConstant = .ok f ∧ f.fold 1 = .ok g ∧ g.fold 2 = .ok g' ∧
      g'.root.map (Tree.map Stamp.pos) = g.root.map (Tree.map Stamp.pos) := by
  have hruns : (match File.parse 0 "a.c" partlyConstant with
      | .ok f => (f.fold 1).isOk
      | .error _ => false) = true := by decide +kernel
  split at hruns
  · next f hparse =>
    cases hfold : f.fold 1 with
    | error e =>
      rw [hfold] at hruns
      cases hruns
    | ok g =>
      obtain ⟨g', hagain, -, hsame⟩ := File.fold_idempotent hfold 2
      exact ⟨f, g, g', hparse, hfold, hagain, hsame⟩
  · cases hruns

end CSubset
