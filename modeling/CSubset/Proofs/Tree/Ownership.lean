import CSubset.Proofs.Folding.Copies
import CSubset.Proofs.Tree.Copying
import CSubset.Proofs.Tree.Parsed

/-!
# Who owns the nodes

An arena owns some trees if it holds each of their nodes under its identity, and no two of them
under the same one (`Arena.Owns`). A step of allocation exchanges trees for others: those that it is
given become those that it makes, and whatever else the arena owns it goes on to own
(`Arena.Exchanges`). So steps can be put one after the other without looking at the rest of the
arena. Building the tree of a text exchanges nothing for its root, and so does folding.

Indices are words, so an arena can own its trees only while its places are indices (`Arena.Fits`).
No step makes an arena smaller: if it fits in the end, it did all the time.
-/

namespace CSubset

theorem NodeId.eq_of_index {id id' : NodeId} (hgeneration : id.generation = id'.generation)
    (hindex : id.index = id'.index) : id = id' := by
  cases id
  cases id'
  simp_all

namespace Arena

variable {id : NodeId}

/-- Each node of the trees is in the arena, in a place of its own. -/
structure Owns (a : Arena) (ns : List Node) : Prop where
  distinct : ((ns.flatMap Tree.postorder).map Node.id).Nodup
  held : ∀ n : Node, n ∈ ns.flatMap Tree.postorder → a.node? n.id = some n

variable {a b c : Arena} {us vs ws gs : List Node} {n : Node}

theorem node?_eq_some :
    a.node? id = some n ↔ id.generation = a.generation ∧ a.nodes[id.index.toNat]? = some n := by
  unfold node?
  split <;> simp_all

theorem index_lt (h : a.node? id = some n) : id.index.toNat < a.size := by
  obtain ⟨hindex, -⟩ := Array.getElem?_eq_some_iff.mp (node?_eq_some.mp h).2
  exact hindex

namespace Owns

theorem nil : a.Owns [] := ⟨List.nodup_nil, nofun⟩

theorem perm (h : a.Owns us) (hperm : us.Perm vs) : a.Owns vs where
  distinct := ((hperm.flatMap_right Tree.postorder).map Node.id).nodup_iff.mp h.distinct
  held n hn := h.held n ((hperm.flatMap_right Tree.postorder).mem_iff.mpr hn)

theorem append_right (h : a.Owns (us ++ vs)) : a.Owns vs where
  distinct := by
    have hall := h.distinct
    rw [List.flatMap_append, List.map_append] at hall
    exact hall.of_append_right
  held n hn := h.held n (by
    rw [List.flatMap_append]
    exact List.mem_append_right _ hn)

/-- All nodes that are owned were there before the next one is allocated. -/
theorem index_lt_size (h : a.Owns us) {id : NodeId}
    (hid : id ∈ (us.flatMap Tree.postorder).map Node.id) : id.index.toNat < a.size := by
  obtain ⟨n, hn, rfl⟩ := List.mem_map.mp hid
  exact index_lt (h.held n hn)

end Owns

/-- Every place in the arena is an index. -/
def Fits (a : Arena) : Prop := a.size ≤ UInt32.size

/-- Between the two states of an arena the trees `us` have become `vs`. All else that the arena owns
is kept. -/
structure Exchanges (a : Arena) (us vs : List Node) (b : Arena) : Prop where
  generation : b.generation = a.generation
  size_le : a.size ≤ b.size
  owns : b.Fits → ∀ gs, a.Owns (us ++ gs) → b.Owns (vs ++ gs)

namespace Exchanges

theorem refl : a.Exchanges us us a := ⟨rfl, Nat.le_refl _, fun _ _ h => h⟩

theorem trans (h : a.Exchanges us vs b) (h' : b.Exchanges vs ws c) : a.Exchanges us ws c where
  generation := h'.generation.trans h.generation
  size_le := Nat.le_trans h.size_le h'.size_le
  owns hfits gs howns := h'.owns hfits gs (h.owns (Nat.le_trans h'.size_le hfits) gs howns)

/-- A step can be taken beside other trees. -/
theorem beside (h : a.Exchanges us vs b) (gs : List Node) :
    a.Exchanges (us ++ gs) (vs ++ gs) b where
  generation := h.generation
  size_le := h.size_le
  owns hfits fs howns := by
    rw [List.append_assoc] at howns ⊢
    exact h.owns hfits _ howns

theorem perm {us' vs' : List Node} (h : a.Exchanges us vs b) (hus : us'.Perm us)
    (hvs : vs.Perm vs') : a.Exchanges us' vs' b where
  generation := h.generation
  size_le := h.size_le
  owns hfits gs howns :=
    (h.owns hfits gs (howns.perm (hus.append_right gs))).perm (hvs.append_right gs)

/-- What is made of nothing is made after what there is. -/
theorem after (h : a.Exchanges [] vs b) (gs : List Node) : a.Exchanges gs (gs ++ vs) b :=
  (h.beside gs).perm (.refl _) List.perm_append_comm

/-- Trees that are not needed can be dropped. -/
theorem drop (h : a.Exchanges us vs b) (ds : List Node) : a.Exchanges (ds ++ us) vs b where
  generation := h.generation
  size_le := h.size_le
  owns hfits gs howns := by
    rw [List.append_assoc] at howns
    exact h.owns hfits gs howns.append_right

end Exchanges

/-! ## Single steps

A step takes nodes that nothing points at and leaves others in their place. -/

/-- The nodes of a tree among others are those of the trees that it is made of, and the root. -/
theorem perm_postorder (hchildren : n.children.reduceOption.Perm us) (gs : List Node) :
    (([n] ++ gs).flatMap Tree.postorder).Perm ((us ++ gs).flatMap Tree.postorder ++ [n]) := by
  have hroot : n.postorder.Perm (us.flatMap Tree.postorder ++ [n]) := by
    rw [Tree.postorder_eq, Tree.flatMap_postorderChild]
    exact (hchildren.flatMap_right Tree.postorder).append_right [n]
  rw [List.flatMap_append, List.flatMap_singleton, List.flatMap_append, List.append_assoc]
  refine (hroot.append_right _).trans ?_
  rw [List.append_assoc]
  exact List.perm_append_comm.append_left _

/-- A new node takes its children over. -/
theorem exchanges_push (hid : n.id = a.idAt a.size) (hchildren : n.children.reduceOption.Perm us) :
    a.Exchanges us [n] { a with nodes := a.nodes.push n } where
  generation := rfl
  size_le := by simp [size]
  owns hfits gs howns := by
    have hroom : a.size < UInt32.size := by
      have hpushed : (a.nodes.push n).size ≤ UInt32.size := hfits
      rwa [Array.size_push] at hpushed
    have hindex : n.id.index.toNat = a.nodes.size := by rw [hid, toNat_index_idAt hroom, size]
    have hperm := perm_postorder hchildren gs
    constructor
    · rw [(hperm.map Node.id).nodup_iff, List.map_append, List.nodup_append]
      refine ⟨howns.distinct, List.nodup_singleton _, fun id hm id' hnew heq => ?_⟩
      -- the index of the new node is the size of the arena
      rw [List.map_singleton, List.mem_singleton] at hnew
      subst heq hnew
      exact absurd (howns.index_lt_size hm) (hindex ▸ Nat.lt_irrefl _)
    · intro m hm
      rcases List.mem_append.mp (hperm.mem_iff.mp hm) with hm | hm
      · have hnode := howns.held m hm
        have hplace : m.id.index.toNat < a.nodes.size := index_lt hnode
        rw [node?_eq_some] at hnode ⊢
        refine ⟨hnode.1, ?_⟩
        rw [Array.getElem?_push, if_neg (Nat.ne_of_lt hplace)]
        exact hnode.2
      · rw [List.mem_singleton.mp hm, node?_eq_some, hindex, hid]
        exact ⟨rfl, Array.getElem?_push_size⟩

theorem size_update (place : Nat) (n : Node) (a : Arena) :
    ((update place n).run a).2.size = a.size :=
  Array.size_setIfInBounds

/-- A node that was allocated before its children takes them over. -/
theorem exchanges_update {opened closed : Node} {place : Nat} (hplace : place < a.size)
    (hopened : opened.id.index = .ofNat place) (hid : closed.id = opened.id)
    (hnone : opened.children.reduceOption = []) (hchildren : closed.children.reduceOption.Perm us) :
    a.Exchanges (us ++ [opened]) [closed] ((update place closed).run a).2 where
  generation := rfl
  size_le := Nat.le_of_eq (size_update ..).symm
  owns hfits gs howns := by
    have hroom : place < UInt32.size := by
      rw [Fits, size_update] at hfits
      exact Nat.lt_of_lt_of_le hplace hfits
    have hindex : closed.id.index.toNat = place := by
      rw [hid, hopened, UInt32.toNat_ofNat', Nat.mod_eq_of_lt hroom]
    have hnone : opened.children.reduceOption.Perm [] := hnone ▸ .refl _
    -- the nodes are the same before and after, but for the one that takes its children over
    have hbefore : ((us ++ [opened] ++ gs).flatMap Tree.postorder).Perm
        ((us ++ gs).flatMap Tree.postorder ++ [opened]) := by
      have hmove : (us ++ [opened] ++ gs).Perm ([opened] ++ (us ++ gs)) := by
        rw [← List.append_assoc]
        exact List.perm_append_comm.append_right gs
      exact (hmove.flatMap_right _).trans (perm_postorder hnone (us ++ gs))
    have hafter := perm_postorder hchildren gs
    have hdistinct := (hbefore.map Node.id).nodup_iff.mp howns.distinct
    have hheld : a.node? closed.id = some opened := by
      rw [hid]
      exact howns.held opened (hbefore.mem_iff.mpr (List.mem_append_right _ List.mem_cons_self))
    constructor
    · rw [(hafter.map Node.id).nodup_iff, List.map_append, List.map_singleton, hid]
      rwa [List.map_append, List.map_singleton] at hdistinct
    · intro m hm
      rcases List.mem_append.mp (hafter.mem_iff.mp hm) with hm | hm
      · have hnode := howns.held m (hbefore.mem_iff.mpr (List.mem_append_left _ hm))
        have hne : m.id ≠ closed.id := by
          rw [List.map_append, List.nodup_append] at hdistinct
          rw [hid]
          exact hdistinct.2.2 _ (List.mem_map_of_mem hm) _ List.mem_cons_self
        rw [node?_eq_some] at hnode hheld ⊢
        refine ⟨hnode.1, ?_⟩
        rw [update, ← hindex]
        refine (Array.getElem?_setIfInBounds_ne fun heq => hne ?_).trans hnode.2
        exact NodeId.eq_of_index (hnode.1.trans hheld.1.symm) (UInt32.toNat_inj.mp heq.symm)
      · rw [List.mem_singleton.mp hm, node?_eq_some, hindex]
        exact ⟨(node?_eq_some.mp hheld).1, Array.getElem?_setIfInBounds_self_of_lt hplace⟩

end Arena

/-! ## Building trees -/

/-- Whatever the arena, the step makes `vs` of the trees `us`. -/
def Makes {α : Type} (us : List Node) (x : Alloc α) (vs : α → List Node) : Prop :=
  ∀ a : Arena, a.Exchanges us (vs (x.run a).1) (x.run a).2

section Makes

variable {α β : Type} {us us' gs : List Node} {x : Alloc α} {vs : α → List Node}
  {ws : β → List Node} {make : Stamp → Node}

theorem Makes.pure {r : α} : Makes (vs r) (pure r) vs := fun _ => .refl

theorem Makes.perm (h : Makes us x vs) (hperm : us'.Perm us) : Makes us' x vs :=
  fun a => (h a).perm hperm (.refl _)

theorem Makes.drop (h : Makes us x vs) (ds : List Node) : Makes (ds ++ us) x vs :=
  fun a => (h a).drop ds

/-- The first step needs none of the trees that are there; what it makes comes after them. -/
theorem Makes.bind {k : α → Alloc β} (hx : Makes [] x vs) (hk : ∀ r, Makes (gs ++ vs r) (k r) ws) :
    Makes gs (x >>= k) ws :=
  fun a => ((hx a).after gs).trans (hk _ _)

/-- The first step needs the last trees that are there. -/
theorem Makes.bind_taking {k : α → Alloc β} (hx : Makes us x vs) (gs : List Node)
    (hk : ∀ r, Makes (gs ++ vs r) (k r) ws) : Makes (gs ++ us) (x >>= k) ws :=
  fun a => (((hx a).beside gs).perm List.perm_append_comm List.perm_append_comm).trans (hk _ _)

theorem Makes.singleton {x : Alloc Node} (h : Makes us x ([·])) : Makes us (do return [← x]) id :=
  h.bind_taking [] fun _ => .pure

theorem Makes.mapM {γ : Type} {f : γ → Alloc Node} (hf : ∀ c, Makes [] (f c) ([·])) (cs : List γ) :
    Makes [] (cs.mapM f) id := by
  induction cs with
  | nil => exact fun _ => .refl
  | cons c cs ih =>
    rw [List.mapM_cons]
    exact (hf c).bind fun n => ih.bind fun ns => .pure

theorem makes_alloc (hlabel : ∀ stamp, (make stamp).label = stamp)
    (hchildren : ∀ stamp, (make stamp).children.reduceOption = us) :
    Makes us (Arena.alloc make) ([·]) :=
  fun _ => Arena.exchanges_push (congrArg Stamp.id (hlabel _)) (hchildren _ ▸ .refl _)

theorem makes_setMark (pos : Pos) : Makes us (Arena.setMark pos) fun _ => us :=
  fun _ => ⟨rfl, Nat.le_refl _, fun _ _ h => ⟨h.distinct, h.held⟩⟩

theorem makes_allocAt {pos : Pos} (hlabel : ∀ stamp, (make stamp).label = stamp)
    (hchildren : ∀ stamp, (make stamp).children.reduceOption = us) :
    Makes us (Arena.allocAt pos make) ([·]) :=
  (makes_setMark pos).bind_taking [] fun _ => makes_alloc hlabel hchildren

theorem makes_leaf (pos : Pos) (form : Leaf) : Makes [] (Arena.allocAt pos (.leaf · form)) ([·]) :=
  makes_allocAt (fun _ => rfl) fun _ => rfl

theorem makes_unary (pos : Pos) (form : UnaryForm) (child : Option Node) :
    Makes child.toList (Arena.allocAt pos (.unary · form child)) ([·]) :=
  makes_allocAt (fun _ => rfl) fun _ => List.reduceOption_singleton child

theorem makes_binary (pos : Pos) (form : BinaryForm) (left right : Node) :
    Makes [left, right] (Arena.allocAt pos (.binary · form (some left) (some right))) ([·]) :=
  makes_allocAt (fun _ => rfl) fun _ => rfl

end Makes

/-! ### Copies -/

theorem reduceOption_pair (left right : Option Node) :
    [left, right].reduceOption = left.toList ++ right.toList := by
  cases left <;> cases right <;> rfl

theorem reduceOption_triple (first second third : Option Node) :
    [first, second, third].reduceOption = first.toList ++ second.toList ++ third.toList := by
  cases first <;> cases second <;> cases third <;> rfl

namespace Sketch

theorem makes_place {us : List Node} (pos : Option Pos) {make : Stamp → Node}
    (hlabel : ∀ stamp, (make stamp).label = stamp)
    (hchildren : ∀ stamp, (make stamp).children.reduceOption = us) :
    Makes us (place pos make) ([·]) := by
  cases pos with
  | none => exact makes_alloc hlabel hchildren
  | some pos => exact makes_allocAt hlabel hchildren

mutual

theorem makes_build : (t : Sketch) → Makes [] t.build ([·])
  | .leaf pos form => makes_place pos (fun _ => rfl) fun _ => rfl
  | .seq pos form items => by
    rw [build]
    exact (makes_buildItems items).bind fun ns => makes_place pos (fun _ => rfl) fun _ => rfl
  | .unary pos form child => by
    rw [build]
    exact (makes_buildChild child).bind fun c => makes_place pos (fun _ => rfl) fun _ =>
      List.reduceOption_singleton c
  | .binary pos form left right => by
    rw [build]
    refine (makes_buildChild left).bind fun l => (makes_buildChild right).bind fun r => ?_
    exact makes_place pos (fun _ => rfl) fun _ => reduceOption_pair l r
  | .ternary pos form first second third => by
    rw [build]
    refine (makes_buildChild first).bind fun f => (makes_buildChild second).bind fun s => ?_
    refine (makes_buildChild third).bind fun t => ?_
    exact makes_place pos (fun _ => rfl) fun _ => reduceOption_triple f s t

theorem makes_buildChild : (t : Option Sketch) → Makes [] (buildChild t) Option.toList
  | none => fun _ => .refl
  | some t => by
    rw [buildChild]
    exact (makes_build t).bind fun n => .pure

theorem makes_buildItems : (ts : List (Option Sketch)) → Makes [] (buildItems ts) List.reduceOption
  | [] => fun _ => .refl
  | t :: ts => by
    rw [buildItems]
    refine (makes_buildChild t).bind fun n => (makes_buildItems ts).bind fun ns => ?_
    cases n <;> exact .pure

end

end Sketch

theorem Node.makes_copy (n : Node) : Makes [] n.copy ([·]) := Sketch.makes_build _

/-! ### Programs -/

namespace Surface

/-- The node of a list is opened before its members and filled behind them. -/
theorem makes_withItems (pos : Pos) (form : SeqForm) {items : Alloc (List Node)}
    (h : Makes [] items id) : Makes [] (withItems pos form items) ([·]) := by
  have hopen : Makes [] (Arena.allocAt pos (.seq · form [])) ([·]) :=
    makes_allocAt (fun _ => rfl) fun _ => rfl
  intro a
  -- the list is open while its members are made
  let b := ((Arena.allocAt pos (.seq · form [])).run a).2
  let opened := ((Arena.allocAt pos (.seq · form [])).run a).1
  let ns := (items.run b).1
  have hthere : a.size < (items.run b).2.size := by
    refine Nat.lt_of_lt_of_le ?_ (h b).size_le
    show a.nodes.size < (a.nodes.push _).size
    simp
  have hclose : (items.run b).2.Exchanges (ns ++ [opened])
      [.seq opened.label form (ns.map some)] _ :=
    Arena.exchanges_update hthere rfl rfl rfl (by simp [Tree.children, List.reduceOption])
  exact (hopen a).trans (((h b).after [opened]).trans (hclose.perm List.perm_append_comm (.refl _)))

mutual

/-- Each node takes its parts, which nothing else has. -/
theorem Expr.makes_build : (e : Expr) → Makes [] e.build ([·])
  | .int _ _ => makes_leaf _ _
  | .str _ _ => makes_leaf _ _
  | .name _ _ => makes_leaf _ _
  | .call _ _ _ args => by
    rw [Expr.build]
    exact (makes_withItems _ _ (Expr.makes_buildAll args)).bind fun list => makes_unary
      _ _ (some list)
  | .neg pos operand => by
    rw [Expr.build]
    refine operand.makes_build.bind fun n => ?_
    refine (makes_leaf pos (.intConst 0)).bind fun zero => ?_
    -- zero is the left operand, but it is made after the right one
    exact (makes_binary pos _ zero n).perm (.swap ..)
  | .binary _ _ left right => by
    rw [Expr.build]
    exact left.makes_build.bind fun l => right.makes_build.bind fun r => makes_binary _ _ l r
  | .assign _ target value => by
    rw [Expr.build]
    exact target.makes_build.bind fun l => value.makes_build.bind fun r => makes_binary _ _ l r

theorem Expr.makes_buildAll : (es : List Expr) → Makes [] (Expr.buildAll es) id
  | [] => fun _ => .refl
  | e :: es => by
    rw [Expr.buildAll]
    exact e.makes_build.bind fun n => (Expr.makes_buildAll es).bind fun ns => .pure

end

theorem TypeSpec.makes_build (t : TypeSpec) : Makes [] t.build ([·]) := makes_leaf _ _

theorem Declarator.makes_build (d : Declarator) : Makes [] d.build ([·]) := makes_leaf _ _

/-- The target of the first assignment is a copy, since the declaration has the name. -/
theorem InitDeclarator.makes_build (pos : Pos) (type name : Node) (init : Option Initializer) :
    Makes [type, name] (InitDeclarator.build pos type name init) id := by
  refine (makes_binary pos .forward type name).bind_taking [] fun decl => ?_
  cases init with
  | none => exact .pure
  | some init =>
    refine init.value.makes_build.bind fun value => name.makes_copy.bind fun target => ?_
    have hassign := (makes_binary init.pos .assign target value).perm (.swap target value [])
    exact hassign.bind_taking [decl] fun assign => .pure

/-- The type of the first variable is not needed for the others, which have copies. -/
theorem InitDeclarator.makes_buildMore (pos : Pos) (type : Node) (ds : List InitDeclarator) :
    Makes [] (InitDeclarator.buildMore pos type ds) id := by
  induction ds with
  | nil => exact fun _ => .refl
  | cons d ds ih =>
    rw [InitDeclarator.buildMore]
    refine d.declarator.makes_build.bind fun name => type.makes_copy.bind fun type' => ?_
    refine ((InitDeclarator.makes_build pos type' name d.init).perm (.swap ..)).bind_taking
      [] fun ns => ?_
    exact ih.bind fun more => .pure

theorem VarDecl.makes_build (d : VarDecl) : Makes [] d.build id := by
  refine d.type.makes_build.bind fun type => d.first.declarator.makes_build.bind fun name => ?_
  refine (InitDeclarator.makes_build d.pos type name d.first.init).bind_taking [] fun ns => ?_
  exact (InitDeclarator.makes_buildMore d.pos type d.more).bind fun more => .pure

theorem Stmt.makes_asBody (s : Stmt) (ns : List Node) : Makes ns (s.asBody ns) ([·]) := by
  unfold Stmt.asBody
  split
  next n => exact .pure
  next => exact makes_allocAt (fun _ => rfl) fun _ => by simp [Tree.children, List.reduceOption]

mutual

/-- A statement may leave several nodes or none. -/
theorem Stmt.makes_build : (s : Stmt) → Makes [] s.build id
  | .ret _ value => by
    rw [Stmt.build]
    have hvalue : Makes [] (value.mapM Expr.build) Option.toList := by
      cases value with
      | none => exact fun _ => .refl
      | some value => exact value.makes_build.bind fun n => .pure
    exact hvalue.bind fun v => (makes_unary _ .ret v).singleton
  | .ifThen _ cond body => by
    rw [Stmt.build]
    refine cond.makes_build.bind fun c => body.makes_build.bind fun ns => ?_
    refine (body.makes_asBody ns).bind_taking [c] fun b => ?_
    exact (makes_binary _ _ c b).singleton
  | .ifThenElse _ cond thenBody elseBody => by
    rw [Stmt.build]
    refine cond.makes_build.bind fun c => thenBody.makes_build.bind fun ns => ?_
    refine (thenBody.makes_asBody ns).bind_taking [c] fun b =>
      elseBody.makes_build.bind fun ms => ?_
    refine (elseBody.makes_asBody ms).bind_taking [c, b] fun b' => ?_
    exact Makes.singleton (makes_allocAt (fun _ => rfl) fun _ => rfl)
  | .while _ cond body => by
    rw [Stmt.build]
    refine cond.makes_build.bind fun c => body.makes_build.bind fun ns => ?_
    refine (body.makes_asBody ns).bind_taking [c] fun b => ?_
    exact (makes_binary _ _ c b).singleton
  | .block _ stmts => by
    rw [Stmt.build]
    exact Makes.singleton (makes_withItems _ _ (Stmt.makes_buildAll stmts))
  | .empty _ => fun _ => .refl
  | .vars decl => decl.makes_build
  | .expr _ value => by
    rw [Stmt.build]
    exact value.makes_build.singleton

theorem Stmt.makes_buildAll : (ss : List Stmt) → Makes [] (Stmt.buildAll ss) id
  | [] => fun _ => .refl
  | s :: ss => by
    rw [Stmt.buildAll]
    exact s.makes_build.bind fun ns => (Stmt.makes_buildAll ss).bind fun ms => .pure

end

theorem Param.makes_build (p : Param) : Makes [] p.build ([·]) :=
  p.type.makes_build.bind fun type => p.declarator.makes_build.bind fun name =>
    makes_binary _ _ type name

theorem FunctionHead.makes_build (h : FunctionHead) : Makes [] h.build fun p => [p.1, p.2] := by
  refine h.type.makes_build.bind fun type => h.declarator.makes_build.bind fun name => ?_
  refine (makes_withItems _ _ (.mapM Param.makes_build h.params)).bind fun params => ?_
  refine (makes_unary _ _ (some params)).bind_taking [type, name] fun signature => ?_
  -- the node of the declarator is no part of the tree
  exact (Makes.pure.drop [name]).perm (.swap ..)

theorem External.makes_build : (e : External) → Makes [] e.build id
  | .prototype head =>
    head.makes_build.bind fun (type, signature) => (makes_binary _ _ type signature).singleton
  | .definition head body =>
    head.makes_build.bind fun _ =>
      (makes_withItems _ _ (Stmt.makes_buildAll body.stmts)).bind fun _ =>
      Makes.singleton (makes_allocAt (fun _ => rfl) fun _ => rfl)
  | .vars decl => decl.makes_build

theorem External.makes_buildAll (es : List External) : Makes [] (External.buildAll es) id := by
  induction es with
  | nil => exact fun _ => .refl
  | cons e es ih =>
    rw [External.buildAll]
    exact e.makes_build.bind fun ns => ih.bind fun ms => .pure

theorem Program.makes_build (p : Program) : Makes [] p.build ([·]) :=
  makes_withItems _ _ (External.makes_buildAll p.externals)

end Surface

/-! ## Folding -/

namespace Node

variable {a a' : Arena} {m : Node} {us : List Node}

theorem exchanges_of_gives {α : Type} {x : Alloc α} (vs : α → List Node) {v : α}
    (h : Gives (liftM x : FoldM α) a v a') (hx : Makes us x vs) : a.Exchanges us (vs v) a' := by
  have hrun : x.run a = (v, a') := gives_lift.mp h
  have hmakes := hx a
  rwa [hrun] at hmakes

theorem exchanges_allocAt {pos : Pos} {make : Stamp → Node}
    (h : Gives (liftM (Arena.allocAt pos make) : FoldM Node) a m a')
    (hlabel : ∀ stamp, (make stamp).label = stamp)
    (hchildren : ∀ stamp, (make stamp).children.reduceOption = us) : a.Exchanges us [m] a' :=
  exchanges_of_gives ([·]) h (makes_allocAt hlabel hchildren)

/-- Operands that are constants are dropped with the operation; others become children. -/
theorem exchanges_foldArithmetic {stamp : Stamp} {op : Coded ArithOp} {left right : Option Node}
    (h : Gives (foldArithmetic stamp op left right) a m a') :
    a.Exchanges (left.toList ++ right.toList) [m] a' := by
  unfold foldArithmetic at h
  obtain ⟨_, b, hmark, h⟩ := gives_bind.mp h
  refine (exchanges_of_gives _ hmark (makes_setMark stamp.pos)).trans ?_
  split at h
  · split at h
    · next value _ =>
      have hleaf : Makes [] (Arena.alloc (.leaf · (.intConst value))) ([·]) :=
        makes_alloc (fun _ => rfl) fun _ => rfl
      exact List.append_nil (_ ++ _) ▸ (exchanges_of_gives ([·]) h hleaf).drop _
    · exact absurd h gives_throw
  · exact exchanges_of_gives ([·]) h
      (makes_alloc (fun _ => rfl) fun _ => reduceOption_pair left right)

/-- Folding the tree makes a tree of nothing. -/
def FoldMakes (n : Node) : Prop := ∀ {a m a'}, Gives n.fold a m a' → a.Exchanges [] [m] a'

theorem exchanges_foldChild {child : Option Node} (htree : ∀ n, child = some n → FoldMakes n)
    {c : Option Node} (h : Gives (foldChild child) a c a') : a.Exchanges [] c.toList a' := by
  unfold foldChild at h
  cases child with
  | none =>
    obtain ⟨rfl, rfl⟩ := gives_pure.mp h
    exact .refl
  | some n =>
    obtain ⟨n', _, hn, h⟩ := gives_bind.mp h
    obtain ⟨rfl, rfl⟩ := gives_pure.mp h
    exact htree n rfl hn

theorem exchanges_foldItems {items : List (Option Node)} (htree : ∀ n, some n ∈ items → FoldMakes n)
    {cs : List (Option Node)} (h : Gives (foldItems items) a cs a') :
    a.Exchanges [] cs.reduceOption a' := by
  induction items generalizing a cs a' with
  | nil =>
    unfold foldItems at h
    obtain ⟨rfl, rfl⟩ := gives_pure.mp h
    exact .refl
  | cons item items ih =>
    unfold foldItems at h
    obtain ⟨c, b, hitem, h⟩ := gives_bind.mp h
    obtain ⟨cs, b', hitems, h⟩ := gives_bind.mp h
    obtain ⟨rfl, rfl⟩ := gives_pure.mp h
    have hfirst := exchanges_foldChild (fun n hn => htree n (hn ▸ List.mem_cons_self)) hitem
    have hrest := ih (fun n hn => htree n (List.mem_cons_of_mem _ hn)) hitems
    cases c <;> exact hfirst.trans (hrest.after _)

/-- Folding makes a new node for each node, and takes only those that it has made. -/
theorem foldMakes (n : Node) : FoldMakes n := by
  induction n using Tree.ind with
  | leaf stamp form =>
    intro a m a' h
    unfold fold at h
    exact exchanges_allocAt h (fun _ => rfl) fun _ => rfl
  | seq stamp form items ih =>
    intro a m a' h
    unfold fold at h
    obtain ⟨items', b, hitems, h⟩ := gives_bind.mp h
    exact (exchanges_foldItems ih hitems).trans (exchanges_allocAt h (fun _ => rfl) fun _ => rfl)
  | unary stamp form child ih _ =>
    intro a m a' h
    unfold fold at h
    obtain ⟨child', b, hchild, h⟩ := gives_bind.mp h
    refine (exchanges_foldChild ih hchild).trans (exchanges_allocAt h (fun _ => rfl) fun _ => ?_)
    exact List.reduceOption_singleton child'
  | binary stamp form left right ihl ihr =>
    intro a m a' h
    unfold fold at h
    obtain ⟨left', b, hleft, h⟩ := gives_bind.mp h
    obtain ⟨right', b', hright, h⟩ := gives_bind.mp h
    refine (exchanges_foldChild ihl hleft).trans
      (((exchanges_foldChild ihr hright).after _).trans ?_)
    split at h
    · exact exchanges_foldArithmetic h
    · exact exchanges_allocAt h (fun _ => rfl) fun _ => reduceOption_pair left' right'
  | ternary stamp form first second third ih₁ ih₂ ih₃ =>
    intro a m a' h
    unfold fold at h
    obtain ⟨first', b₁, h₁, h⟩ := gives_bind.mp h
    obtain ⟨second', b₂, h₂, h⟩ := gives_bind.mp h
    obtain ⟨third', b₃, h₃, h⟩ := gives_bind.mp h
    refine (exchanges_foldChild ih₁ h₁).trans (((exchanges_foldChild ih₂ h₂).after _).trans ?_)
    refine ((exchanges_foldChild ih₃ h₃).after _).trans ?_
    exact exchanges_allocAt h (fun _ => rfl) fun _ => reduceOption_triple first' second' third'

end Node

/-! ## Files -/

namespace File

/-- The arena of the file has the generation, and it owns the tree of the file if it fits. -/
def OwnsTree (generation : UInt32) (file : File) : Prop :=
  file.arena.generation = generation ∧ (file.arena.Fits → file.arena.Owns file.root.toList)

variable {generation : UInt32} {file : File}

theorem ownsTree_of_exchanges {a : Arena} {name : String} {root : Option Node}
    (h : (Arena.empty generation).Exchanges [] root.toList a) :
    OwnsTree generation ⟨name, a, root⟩ :=
  ⟨h.generation, fun hfits => List.append_nil root.toList ▸ h.owns hfits [] .nil⟩

theorem ownsTree_of_parse {path : String} {text : List Char}
    (h : File.parse generation path text = .ok file) : OwnsTree generation file := by
  obtain ⟨program, -, rfl⟩ := File.parse_eq_ok_iff.mp h
  exact ownsTree_of_exchanges (program.makes_build _)

theorem ownsTree_of_fold {folded : File} (h : file.fold generation = .ok folded) :
    OwnsTree generation folded := by
  unfold File.fold at h
  split at h
  · next root arena hrun =>
    obtain rfl := Except.ok.inj h
    exact ownsTree_of_exchanges (Node.exchanges_foldChild (fun n _ => n.foldMakes) hrun)
  · cases h

end File

end CSubset
