import CSubset.Proofs.Layout.Phrases
import CSubset.Tree.File

/-!
# Trees elsewhere

If the positions in a program are moved, its tree has the same nodes in the same order of
allocation, at the positions that are moved in the same way (`Surface.Program.moves_build`). Folding
a tree whose positions are moved gives the folded tree, moved, and where folding fails it blames the
same node (`Node.moves_fold`). Two runs allocate in arenas of their own, so also the generations may
differ.
-/

namespace CSubset

/-! ## Nodes elsewhere -/

/-- The stamp of the same node in an arena of this generation, at a position that is moved. -/
def Stamp.relocate (generation : UInt32) (f : Pos → Pos) (s : Stamp) : Stamp :=
  ⟨⟨generation, s.id.index⟩, f s.pos⟩

/-- The tree with the positions moved, in an arena of another generation. -/
def Node.relocate (generation : UInt32) (f : Pos → Pos) (n : Node) : Node :=
  n.map (Stamp.relocate generation f)

section

variable {generation : UInt32} {f : Pos → Pos}

theorem Node.mapChild_eq (c : Option Node) :
    Tree.mapChild (Stamp.relocate generation f) c = c.map (Node.relocate generation f) := by
  cases c <;> rfl

theorem Node.mapItems_eq (cs : List (Option Node)) :
    Tree.mapItems (Stamp.relocate generation f) cs = cs.map
      (Option.map (Node.relocate generation f)) := by
  induction cs with
  | nil => rfl
  | cons c cs ih => rw [Tree.mapItems, ih, Node.mapChild_eq, List.map_cons]

theorem Node.mapItems_map_some (ns : List Node) :
    Tree.mapItems (Stamp.relocate generation f) (ns.map some) =
      (ns.map (Node.relocate generation f)).map some := by
  rw [Node.mapItems_eq, List.map_map, List.map_map]
  rfl

/-- A child without children is one wherever it is. -/
theorem Node.leaf_of_relocate {c : Option Node} {stamp : Stamp} {form : Leaf}
    (hc : c.map (Node.relocate generation f) = some (.leaf stamp form)) :
    ∃ stamp', c = some (.leaf stamp' form) := by
  obtain ⟨n, rfl, hn⟩ := Option.map_eq_some_iff.mp hc
  cases n with
  | leaf stamp' form' =>
    obtain rfl : form' = form := (Tree.leaf.inj hn).2
    exact ⟨stamp', rfl⟩
  | _ => cases hn

end

/-! ## Allocation elsewhere

Two runs that take the same steps: the indices are the same, the positions are moved. -/

/-- `a'` has the nodes of `a`, at positions that are moved. The marks may differ: every node is
allocated at a position of its own. -/
structure Arena.Relocated (f : Pos → Pos) (g g' : UInt32) (a a' : Arena) : Prop where
  source : a.generation = g
  target : a'.generation = g'
  nodes : a'.nodes = a.nodes.map (Node.relocate g' f)

theorem Arena.Relocated.size {f : Pos → Pos} {g g' : UInt32} {a a' : Arena}
    (h : Relocated f g g' a a') : a'.size = a.size := by
  simp [Arena.size, h.nodes]

theorem Arena.relocated_empty (f : Pos → Pos) (g g' : UInt32) :
    Relocated f g g' (empty g) (empty g') where
  source := rfl
  target := rfl
  nodes := by simp [empty]

/-- From an arena and the one that is moved, the second computation does what the first one does,
moved. -/
def Moves {α β : Type} (f : Pos → Pos) (g g' : UInt32) (m : α → β) (x : Alloc α) (y : Alloc β) :
    Prop :=
  ∀ a a', Arena.Relocated f g g' a a' →
    (y.run a').1 = m (x.run a).1 ∧ Arena.Relocated f g g' (x.run a).2 (y.run a').2

section Moves

variable {α β γ δ : Type} {f : Pos → Pos} {g g' : UInt32} {m : α → β} {m' : γ → δ}

theorem Moves.pure (a : α) : Moves f g g' m (pure a) (pure (m a)) := fun _ _ h => ⟨rfl, h⟩

theorem Moves.bind {x : Alloc α} {y : Alloc β} {k : α → Alloc γ} {k' : β → Alloc δ}
    (hx : Moves f g g' m x y) (hk : ∀ a, Moves f g g' m' (k a) (k' (m a))) :
    Moves f g g' m' (x >>= k) (y >>= k') := by
  intro a a' h
  obtain ⟨hresult, harena⟩ := hx a a' h
  have hrest := hk (x.run a).1 _ _ harena
  rw [← hresult] at hrest
  exact hrest

/-- The node has the next index in both arenas. -/
theorem moves_allocAt (pos : Pos) {make make' : Stamp → Node}
    (hmake : ∀ stamp, make' (stamp.relocate g' f) = (make stamp).relocate g' f) :
    Moves f g g' (Node.relocate g' f) (Arena.allocAt pos make) (Arena.allocAt (f pos) make') := by
  intro a a' h
  have hstamp : (⟨a'.idAt a'.size, f pos⟩ : Stamp) = Stamp.relocate g' f ⟨a.idAt a.size, pos⟩ := by
    rw [Arena.idAt, h.target, h.size]
    rfl
  have hnode : make' ⟨a'.idAt a'.size, f pos⟩ = (make ⟨a.idAt a.size, pos⟩).relocate g' f := by
    rw [hstamp, hmake]
  refine ⟨hnode, h.source, h.target, ?_⟩
  show a'.nodes.push (make' ⟨a'.idAt a'.size, f pos⟩) =
    (a.nodes.push (make ⟨a.idAt a.size, pos⟩)).map _
  rw [Array.map_push, hnode, h.nodes]

/-- A node is replaced in the same place. -/
theorem moves_update (place : Nat) (n : Node) :
    Moves f g g' id (Arena.update place n) (Arena.update place (n.relocate g' f)) := by
  intro a a' h
  refine ⟨rfl, h.source, h.target, ?_⟩
  show a'.nodes.setIfInBounds place _ = (a.nodes.setIfInBounds place n).map _
  simp [h.nodes]

namespace Surface

/-- The members are allocated between the first version of the list node and the last. -/
theorem run_withItems (pos : Pos) (form : SeqForm) (items : Alloc (List Node)) (a : Arena) :
    (withItems pos form items).run a =
      let opened := (Arena.allocAt pos (.seq · form [])).run a
      let filled := items.run opened.2
      let closed := Tree.seq opened.1.label form (filled.1.map some)
      (closed, ((Arena.update a.size closed).run filled.2).2) := rfl

/-- The slot that is opened for a list is the same one in both arenas. -/
theorem moves_withItems (pos : Pos) (form : SeqForm) {items items' : Alloc (List Node)}
    (hitems : Moves f g g' (List.map (Node.relocate g' f)) items items') :
    Moves f g g' (Node.relocate g' f) (withItems pos form items)
      (withItems (f pos) form items') := by
  intro a a' h
  obtain ⟨hopened, harena⟩ :=
    @moves_allocAt f g g' pos (.seq · form []) (.seq · form []) (fun _ => rfl) a a' h
  obtain ⟨hns, hfilled⟩ := hitems _ _ harena
  rw [run_withItems, run_withItems]
  dsimp only
  rw [hopened, hns, h.size]
  have hclosed (stamp : Stamp) (ns : List Node) : Tree.seq (stamp.relocate g' f) form
      ((ns.map (Node.relocate g' f)).map some) = Node.relocate g' f
      (.seq stamp form (ns.map some)) := by
    rw [← Node.mapItems_map_some]
    rfl
  obtain ⟨-, hupdated⟩ := @moves_update f g g' a.size
    (.seq ((Arena.allocAt pos (.seq · form [])).run a).1.label form ((items.run _).1.map some)) _ _
      hfilled
  rw [← hclosed] at hupdated
  exact ⟨hclosed _ _, hupdated⟩

/-! ### Programs -/

mutual

/-- By recursion on the expression, with the steps in the same order on both sides. -/
theorem Expr.moves_build :
    ∀ e : Expr, Moves f g g' (Node.relocate g' f) e.build (e.relocate f).build
  | .int pos _ | .str pos _ | .name pos _ => moves_allocAt pos fun _ => rfl
  | .call pos _ argsPos args =>
    (moves_withItems argsPos .parameters (Expr.moves_buildAll args)).bind fun _ => moves_allocAt
      pos fun _ => rfl
  | .neg pos operand =>
    operand.moves_build.bind fun _ => (moves_allocAt pos fun _ => rfl).bind fun _ => moves_allocAt
      pos fun _ => rfl
  | .binary pos _ left right =>
    left.moves_build.bind fun _ => right.moves_build.bind fun _ => moves_allocAt pos fun _ => rfl
  | .assign pos target value =>
    target.moves_build.bind fun _ => value.moves_build.bind fun _ => moves_allocAt pos fun _ => rfl

theorem Expr.moves_buildAll :
    ∀ es : List Expr,
    Moves f g g' (List.map (Node.relocate g' f)) (Expr.buildAll es)
      (Expr.buildAll (Expr.relocateAll f es))
  | [] => .pure []
  | e :: es => e.moves_build.bind fun _ => (Expr.moves_buildAll es).bind fun _ => .pure _

end

theorem Expr.moves_buildValue (value : Option Expr) :
    Moves f g g' (Option.map (Node.relocate g' f)) (value.mapM Expr.build)
      ((value.map (Expr.relocate f)).mapM Expr.build) := by
  cases value with
  | none => exact .pure none
  | some e =>
    show Moves f g g' _ (e.build >>= fun n => pure (some n))
      ((e.relocate f).build >>= fun n => pure (some n))
    exact e.moves_build.bind fun n => .pure (some n)

theorem TypeSpec.moves_build (t : TypeSpec) :
    Moves f g g' (Node.relocate g' f) t.build (t.relocate f).build :=
  moves_allocAt t.pos fun _ => rfl

theorem Declarator.moves_build (d : Declarator) :
    Moves f g g' (Node.relocate g' f) d.build (d.relocate f).build :=
  moves_allocAt d.pos fun _ => rfl

end Surface

mutual

theorem Node.moves_copy :
    ∀ n : Node, Moves f g g' (Node.relocate g' f) n.copy (n.relocate g' f).copy
  | .leaf stamp _ => moves_allocAt stamp.pos fun _ => rfl
  | .seq stamp form items => by
    refine (Node.moves_copyItems items).bind fun _ => moves_allocAt stamp.pos fun _ => ?_
    rw [← Node.mapItems_eq]
    rfl
  | .unary stamp form child => by
    refine (Node.moves_copyChild child).bind fun _ => moves_allocAt stamp.pos fun _ => ?_
    rw [← Node.mapChild_eq]
    rfl
  | .binary stamp form left right => by
    refine (Node.moves_copyChild left).bind fun _ => (Node.moves_copyChild right).bind fun _ =>
      moves_allocAt stamp.pos fun _ => ?_
    rw [← Node.mapChild_eq, ← Node.mapChild_eq]
    rfl
  | .ternary stamp form first second third => by
    refine (Node.moves_copyChild first).bind fun _ => (Node.moves_copyChild second).bind fun _ =>
      (Node.moves_copyChild third).bind fun _ => moves_allocAt stamp.pos fun _ => ?_
    rw [← Node.mapChild_eq, ← Node.mapChild_eq, ← Node.mapChild_eq]
    rfl

theorem Node.moves_copyChild :
    ∀ c : Option Node, Moves f g g' (Option.map (Node.relocate g' f))
    (Sketch.buildChild (Tree.mapChild (fun stamp => some stamp.pos) c))
    (Sketch.buildChild
      (Tree.mapChild (fun stamp => some stamp.pos) (Tree.mapChild (Stamp.relocate g' f) c)))
  | none => .pure none
  | some n => n.moves_copy.bind fun _ => .pure _

theorem Node.moves_copyItems :
    ∀ cs : List (Option Node), Moves f g g' (List.map (Option.map (Node.relocate g' f)))
    (Sketch.buildItems (Tree.mapItems (fun stamp => some stamp.pos) cs))
    (Sketch.buildItems
      (Tree.mapItems (fun stamp => some stamp.pos) (Tree.mapItems (Stamp.relocate g' f) cs)))
  | [] => .pure []
  | c :: cs =>
    (Node.moves_copyChild c).bind fun _ => (Node.moves_copyItems cs).bind fun _ => .pure _

end

namespace Surface

theorem InitDeclarator.moves_build (pos : Pos) (type name : Node) (init : Option Initializer) :
    Moves f g g' (List.map (Node.relocate g' f)) (InitDeclarator.build pos type name init)
      (InitDeclarator.build (f pos) (type.relocate g' f) (name.relocate g' f)
        (init.map (Initializer.relocate f))) := by
  refine (moves_allocAt pos fun _ => rfl).bind fun decl => ?_
  cases init with
  | none => exact .pure [decl]
  | some init =>
    refine init.value.moves_build.bind fun value => name.moves_copy.bind fun target => ?_
    exact (moves_allocAt init.pos fun _ => rfl).bind fun assign => .pure [decl, assign]

theorem InitDeclarator.moves_buildMore (pos : Pos) (type : Node) (ds : List InitDeclarator) :
    Moves f g g' (List.map (Node.relocate g' f)) (InitDeclarator.buildMore pos type ds)
      (InitDeclarator.buildMore (f pos) (type.relocate g' f)
        (ds.map (InitDeclarator.relocate f))) := by
  induction ds with
  | nil => exact .pure []
  | cons d ds ih =>
    refine d.declarator.moves_build.bind fun name => type.moves_copy.bind fun type' => ?_
    refine (InitDeclarator.moves_build pos type' name d.init).bind fun ns => ih.bind fun more => ?_
    rw [← List.map_append]
    exact .pure (ns ++ more)

theorem VarDecl.moves_build (d : VarDecl) :
    Moves f g g' (List.map (Node.relocate g' f)) d.build (d.relocate f).build := by
  refine d.type.moves_build.bind fun type => d.first.declarator.moves_build.bind fun name => ?_
  refine (InitDeclarator.moves_build d.pos type name d.first.init).bind fun ns => ?_
  refine (InitDeclarator.moves_buildMore d.pos type d.more).bind fun more => ?_
  rw [← List.map_append]
  exact .pure (ns ++ more)

theorem Stmt.pos_relocate (s : Stmt) : (s.relocate f).pos = f s.pos := by
  cases s <;> rfl

theorem Stmt.moves_asBody (s : Stmt) (ns : List Node) :
    Moves f g g' (Node.relocate g' f) (s.asBody ns)
      ((s.relocate f).asBody (ns.map (Node.relocate g' f))) := by
  have hblock : Moves f g g' (Node.relocate g' f)
      (Arena.allocAt s.pos (.seq · .block (ns.map some)))
      (Arena.allocAt (s.relocate f).pos
      (.seq · .block ((ns.map (Node.relocate g' f)).map some))) := by
    rw [Stmt.pos_relocate]
    refine moves_allocAt s.pos fun _ => ?_
    rw [← Node.mapItems_map_some]
    rfl
  cases s with
  | block pos stmts =>
    match ns with
    | [n] => exact .pure n
    | [] | _ :: _ :: _ => exact hblock
  | _ => exact hblock

mutual

theorem Stmt.moves_build :
    ∀ s : Stmt, Moves f g g' (List.map (Node.relocate g' f)) s.build (s.relocate f).build
  | .ret pos value => by
    refine (Expr.moves_buildValue value).bind fun _ => (moves_allocAt pos fun _ => ?_).bind
      fun n => .pure [n]
    rw [← Node.mapChild_eq]
    rfl
  | .ifThen pos cond body => by
    refine cond.moves_build.bind fun _ => body.moves_build.bind fun ns =>
      (body.moves_asBody ns).bind fun _ => ?_
    exact (moves_allocAt pos fun _ => rfl).bind fun n => .pure [n]
  | .ifThenElse pos cond thenBody elseBody => by
    refine cond.moves_build.bind fun _ => thenBody.moves_build.bind fun ns =>
      (thenBody.moves_asBody ns).bind fun _ => ?_
    refine elseBody.moves_build.bind fun ns => (elseBody.moves_asBody ns).bind fun _ => ?_
    exact (moves_allocAt pos fun _ => rfl).bind fun n => .pure [n]
  | .while pos cond body => by
    refine cond.moves_build.bind fun _ => body.moves_build.bind fun ns =>
      (body.moves_asBody ns).bind fun _ => ?_
    exact (moves_allocAt pos fun _ => rfl).bind fun n => .pure [n]
  | .block pos stmts =>
    (moves_withItems pos .block (Stmt.moves_buildAll stmts)).bind fun n => .pure [n]
  | .empty _ => .pure []
  | .vars decl => decl.moves_build
  | .expr _ value => value.moves_build.bind fun n => .pure [n]

theorem Stmt.moves_buildAll :
    ∀ ss : List Stmt,
    Moves f g g' (List.map (Node.relocate g' f)) (Stmt.buildAll ss)
      (Stmt.buildAll (Stmt.relocateAll f ss))
  | [] => .pure []
  | s :: ss => by
    refine s.moves_build.bind fun ns => (Stmt.moves_buildAll ss).bind fun more => ?_
    rw [← List.map_append]
    exact .pure (ns ++ more)

end

theorem Param.moves_build (p : Param) :
    Moves f g g' (Node.relocate g' f) p.build (p.relocate f).build :=
  p.type.moves_build.bind fun _ => p.declarator.moves_build.bind fun _ => moves_allocAt
    p.pos fun _ => rfl

theorem Param.moves_buildAll (ps : List Param) :
    Moves f g g' (List.map (Node.relocate g' f)) (ps.mapM Param.build)
      ((ps.map (Param.relocate f)).mapM Param.build) := by
  induction ps with
  | nil => exact .pure []
  | cons p ps ih =>
    rw [List.map_cons, List.mapM_cons, List.mapM_cons]
    exact p.moves_build.bind fun n => ih.bind fun ns => .pure (n :: ns)

theorem FunctionHead.moves_build (h : FunctionHead) :
    Moves f g g' (Prod.map (Node.relocate g' f) (Node.relocate g' f)) h.build
      (h.relocate f).build := by
  refine h.type.moves_build.bind fun type => h.declarator.moves_build.bind fun _ => ?_
  refine (moves_withItems h.paramsPos .parameters (Param.moves_buildAll h.params)).bind
    fun params => ?_
  exact (moves_allocAt h.declarator.namePos fun _ => rfl).bind fun signature => .pure
    (type, signature)

theorem External.moves_build (e : External) :
    Moves f g g' (List.map (Node.relocate g' f)) e.build (e.relocate f).build := by
  cases e with
  | prototype head =>
    refine head.moves_build.bind fun ⟨type, signature⟩ => ?_
    exact (moves_allocAt head.pos fun _ => rfl).bind fun n => .pure [n]
  | definition head body =>
    refine head.moves_build.bind fun ⟨type, signature⟩ => ?_
    refine (moves_withItems body.pos .block (Stmt.moves_buildAll body.stmts)).bind fun block => ?_
    exact (moves_allocAt head.pos fun _ => rfl).bind fun n => .pure [n]
  | vars decl => exact decl.moves_build

theorem External.moves_buildAll (es : List External) :
    Moves f g g' (List.map (Node.relocate g' f)) (External.buildAll es)
      (External.buildAll (es.map (External.relocate f))) := by
  induction es with
  | nil => exact .pure []
  | cons e es ih =>
    refine e.moves_build.bind fun ns => ih.bind fun more => ?_
    rw [← List.map_append]
    exact .pure (ns ++ more)

theorem Program.moves_build (p : Program) :
    Moves f g g' (Node.relocate g' f) p.build (p.relocate f).build :=
  moves_withItems p.pos .program (External.moves_buildAll p.externals)

end Surface

end Moves

/-! ## Folding elsewhere -/

/-- The node to blame is moved too. -/
def FoldError.relocate (h : UInt32) (f : Pos → Pos) (e : FoldError) : FoldError :=
  ⟨e.cause, e.stamp.relocate h f⟩

/-- As `Moves`, for computations that may fail. The node of the input that is blamed is the same
one, moved; the input is in an arena of generation `h`. -/
def FoldMoves {α β : Type} (f : Pos → Pos) (h g g' : UInt32) (m : α → β) (x : FoldM α)
    (y : FoldM β) : Prop :=
  Moves f g g' (fun r : Except FoldError α => (r.map m).mapError (FoldError.relocate h f)) x.run
    y.run

section FoldMoves

variable {α β γ δ : Type} {f : Pos → Pos} {h g g' : UInt32} {m : α → β} {m' : γ → δ}
  {make make' : Stamp → Node}

theorem FoldMoves.pure (a : α) : FoldMoves f h g g' m (pure a) (pure (m a)) :=
  fun _ _ harena => ⟨rfl, harena⟩

theorem FoldMoves.bind {x : FoldM α} {y : FoldM β} {k : α → FoldM γ} {k' : β → FoldM δ}
    (hx : FoldMoves f h g g' m x y) (hk : ∀ a, FoldMoves f h g g' m' (k a) (k' (m a))) :
    FoldMoves f h g g' m' (x >>= k) (y >>= k') := by
  refine @Moves.bind _ _ _ _ f g g' _ _ x.run y.run (ExceptT.bindCont k)
    (ExceptT.bindCont k') hx fun r => ?_
  cases r with
  | ok a => exact hk a
  | error e => exact fun _ _ harena => ⟨rfl, harena⟩

theorem foldMoves_lift {x : Alloc α} {y : Alloc β} (hx : Moves f g g' m x y) :
    FoldMoves f h g g' m (liftM x) (liftM y) := by
  intro a a' harena
  obtain ⟨hresult, hmoved⟩ := hx a a' harena
  exact ⟨congrArg Except.ok hresult, hmoved⟩

theorem foldMoves_allocAt (pos : Pos)
    (hmake : ∀ stamp, make' (stamp.relocate g' f) = (make stamp).relocate g' f) :
    FoldMoves f h g g' (Node.relocate g' f) (Arena.allocAt pos make)
      (Arena.allocAt (f pos) make') :=
  foldMoves_lift (moves_allocAt pos hmake)

theorem foldMoves_alloc (pos : Pos)
    (hmake : ∀ stamp, make' (stamp.relocate g' f) = (make stamp).relocate g' f) :
    FoldMoves f h g g' (Node.relocate g' f) (do Arena.setMark pos; Arena.alloc make)
      (do Arena.setMark (f pos); Arena.alloc make') :=
  fun a a' harena => foldMoves_allocAt pos hmake a a' harena

/-- Whether arithmetic is folded, and to what, does not depend on positions. -/
theorem foldMoves_arithmetic (stamp : Stamp) (op : Coded ArithOp) (left right : Option Node) :
    FoldMoves f h g g' (Node.relocate g' f) (foldArithmetic stamp op left right)
      (foldArithmetic (stamp.relocate h f) op (left.map (Node.relocate g' f))
        (right.map (Node.relocate g' f))) := by
  unfold foldArithmetic
  split
  next l x l' y =>
    dsimp only [Option.map_some, Node.relocate, Tree.map, Stamp.relocate]
    cases evalCoded op x y with
    | ok value => exact foldMoves_alloc stamp.pos fun _ => rfl
    | error cause => exact fun _ _ harena => ⟨rfl, harena.source, harena.target, harena.nodes⟩
  next hother =>
    split
    next hl hr =>
      obtain ⟨_, rfl⟩ := Node.leaf_of_relocate hl
      obtain ⟨_, rfl⟩ := Node.leaf_of_relocate hr
      exact absurd rfl (hother _ _ _ _ rfl)
    next =>
      refine foldMoves_alloc stamp.pos fun _ => ?_
      rw [← Node.mapChild_eq, ← Node.mapChild_eq]
      rfl

mutual

theorem Node.moves_fold :
    ∀ n : Node, FoldMoves f h g g' (Node.relocate g' f) n.fold (n.relocate h f).fold
  | .leaf stamp _ => foldMoves_allocAt stamp.pos fun _ => rfl
  | .seq stamp form items => by
    refine (Node.moves_foldItems items).bind fun _ => foldMoves_allocAt stamp.pos fun _ => ?_
    rw [← Node.mapItems_eq]
    rfl
  | .unary stamp form child => by
    refine (Node.moves_foldChild child).bind fun _ => foldMoves_allocAt stamp.pos fun _ => ?_
    rw [← Node.mapChild_eq]
    rfl
  | .binary stamp form left right => by
    refine (Node.moves_foldChild left).bind fun x => (Node.moves_foldChild right).bind fun y => ?_
    have hcopy : FoldMoves f h g g' (Node.relocate g' f)
        (Arena.allocAt stamp.pos (.binary · form x y))
        (Arena.allocAt (f stamp.pos)
        (.binary · form (x.map (Node.relocate g' f)) (y.map (Node.relocate g' f)))) := by
      refine foldMoves_allocAt stamp.pos fun _ => ?_
      rw [← Node.mapChild_eq, ← Node.mapChild_eq]
      rfl
    cases form with
    | arithmetic op => exact foldMoves_arithmetic stamp op x y
    | _ => exact hcopy
  | .ternary stamp form first second third => by
    refine (Node.moves_foldChild first).bind fun _ => (Node.moves_foldChild second).bind fun _ =>
      (Node.moves_foldChild third).bind fun _ => foldMoves_allocAt stamp.pos fun _ => ?_
    rw [← Node.mapChild_eq, ← Node.mapChild_eq, ← Node.mapChild_eq]
    rfl

theorem Node.moves_foldChild :
    ∀ c : Option Node, FoldMoves f h g g' (Option.map (Node.relocate g' f))
    (Node.foldChild c) (Node.foldChild (Tree.mapChild (Stamp.relocate h f) c))
  | none => .pure none
  | some n => n.moves_fold.bind fun _ => .pure _

theorem Node.moves_foldItems :
    ∀ cs : List (Option Node), FoldMoves f h g g' (List.map (Option.map (Node.relocate g' f)))
    (Node.foldItems cs) (Node.foldItems (Tree.mapItems (Stamp.relocate h f) cs))
  | [] => .pure []
  | c :: cs =>
    (Node.moves_foldChild c).bind fun _ => (Node.moves_foldItems cs).bind fun _ => .pure _

end

end FoldMoves

end CSubset
