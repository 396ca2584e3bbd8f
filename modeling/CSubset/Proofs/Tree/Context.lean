import CSubset.Proofs.Tree.Nodes

/-!
# Trees with a gap

A context is a tree with a gap in the place of one node: the nodes on the way from the root to the
gap, each without the child on that way. A change of labels goes through the tree and through what
is put into the gap (`Context.map_fill`).
-/

namespace CSubset.Tree

variable {σ τ : Type}

/-- A node with a gap in the place of one child. -/
inductive Frame (σ : Type) where
  | item (label : σ) (form : SeqForm) (before after : List (Option (Tree σ)))
  | child (label : σ) (form : UnaryForm)
  | left (label : σ) (form : BinaryForm) (right : Option (Tree σ))
  | right (label : σ) (form : BinaryForm) (left : Option (Tree σ))
  | first (label : σ) (form : TernaryForm) (second third : Option (Tree σ))
  | second (label : σ) (form : TernaryForm) (first third : Option (Tree σ))
  | third (label : σ) (form : TernaryForm) (first second : Option (Tree σ))

namespace Frame

def fill : Frame σ → Tree σ → Tree σ
  | .item l form before after, t => .seq l form (before ++ some t :: after)
  | .child l form, t => .unary l form (some t)
  | .left l form other, t => .binary l form (some t) other
  | .right l form other, t => .binary l form other (some t)
  | .first l form other other', t => .ternary l form (some t) other other'
  | .second l form other other', t => .ternary l form other (some t) other'
  | .third l form other other', t => .ternary l form other other' (some t)

def map (f : σ → τ) : Frame σ → Frame τ
  | .item l form before after => .item (f l) form (mapItems f before) (mapItems f after)
  | .child l form => .child (f l) form
  | .left l form other => .left (f l) form (mapChild f other)
  | .right l form other => .right (f l) form (mapChild f other)
  | .first l form other other' => .first (f l) form (mapChild f other) (mapChild f other')
  | .second l form other other' => .second (f l) form (mapChild f other) (mapChild f other')
  | .third l form other other' => .third (f l) form (mapChild f other) (mapChild f other')

theorem map_fill (f : σ → τ) (frame : Frame σ) (t : Tree σ) :
    (frame.fill t).map f = (frame.map f).fill (t.map f) := by
  cases frame with
  | item l form before after =>
    simp only [fill, map, Tree.map, mapItems_eq_map, List.map_append, List.map_cons, mapChild]
  | _ => rfl

end Frame

/-- The nodes from the root down to a gap. -/
abbrev Context (σ : Type) := List (Frame σ)

namespace Context

def fill (context : Context σ) (t : Tree σ) : Tree σ := context.foldr Frame.fill t

def map (f : σ → τ) (context : Context σ) : Context τ := List.map (Frame.map f) context

theorem fill_cons (frame : Frame σ) (context : Context σ) (t : Tree σ) :
    fill (frame :: context) t = frame.fill (context.fill t) := rfl

theorem map_fill (f : σ → τ) (context : Context σ) (t : Tree σ) :
    (context.fill t).map f = (context.map f).fill (t.map f) := by
  induction context with
  | nil => rfl
  | cons frame context ih =>
    rw [fill_cons, Frame.map_fill, ih]
    rfl

end Context

end CSubset.Tree
