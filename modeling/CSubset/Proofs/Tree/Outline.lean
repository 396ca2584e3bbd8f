import CSubset.Proofs.Tree.Copying
import CSubset.Proofs.Tree.Parsed

/-!
# Outlines

The outline of a piece of syntax is its tree with the positions of the nodes and without their
identities, so it does not depend on the arena that the tree is built in. The tree that a text is
read to has the outline of the program (`File.outline_of_parse`), and a text that spells a program
is read to a tree of that outline (`File.parse_outline`).
-/

namespace CSubset

variable {text : List Char}

namespace Surface

variable {pos : Pos} {t : Tree Pos} {ts : List (Tree Pos)} {type : TypeSpec} {typeNode : Node}
  {x : Alloc Node}

mutual

def Expr.outline : Expr → Tree Pos
  | .int pos value => .leaf pos (.intConst value)
  | .str pos contents => .leaf pos (.strConst (Text.Utf8.encode contents))
  | .name pos ident => .leaf pos (.names [ident] 0)
  | .call pos callee argsPos args =>
    .unary pos (.call callee) (some (.seq argsPos .parameters ((Expr.outlines args).map some)))
  | .neg pos operand =>
    .binary pos (.arithmetic (.known .sub)) (some (.leaf pos (.intConst 0))) (some operand.outline)
  | .binary pos op left right =>
    .binary pos (binaryForm op) (some left.outline) (some right.outline)
  | .assign pos target value => .binary pos .assign (some target.outline) (some value.outline)

def Expr.outlines : List Expr → List (Tree Pos)
  | [] => []
  | e :: es => e.outline :: Expr.outlines es

end

theorem Expr.outlines_eq (es : List Expr) : Expr.outlines es = es.map Expr.outline := by
  induction es with
  | nil => rfl
  | cons e es ih => rw [Expr.outlines, ih, List.map_cons]

def TypeSpec.outline (t : TypeSpec) : Tree Pos := .leaf t.pos (.type (.known t.tag) t.isConst)

def Declarator.outline (d : Declarator) : Tree Pos := .leaf d.pos (.names [d.name] d.stars)

/-- A variable, and the assignment of its first value. -/
def InitDeclarator.outlines (pos : Pos) (type : TypeSpec) (d : InitDeclarator) : List (Tree Pos) :=
  .binary pos .forward (some type.outline) (some d.declarator.outline) :: d.init.toList.map
    fun init => .binary init.pos .assign (some d.declarator.outline) (some init.value.outline)

def VarDecl.outlines (d : VarDecl) : List (Tree Pos) :=
  (d.first :: d.more).flatMap (InitDeclarator.outlines d.pos d.type)

/-- The block under a condition, from the nodes of the statement there. -/
def Stmt.bodyOutline (s : Stmt) (nodes : List (Tree Pos)) : Tree Pos :=
  match s, nodes with
  | .block _ _, [n] => n
  | s, nodes => .seq s.pos .block (nodes.map some)

mutual

def Stmt.outlines : Stmt → List (Tree Pos)
  | .ret pos value => [.unary pos .ret (value.map Expr.outline)]
  | .ifThen pos cond body =>
    [.binary pos .ifThen (some cond.outline) (some (body.bodyOutline body.outlines))]
  | .ifThenElse pos cond thenBody elseBody =>
    [.ternary pos .ifThenElse (some cond.outline) (some (thenBody.bodyOutline thenBody.outlines))
      (some (elseBody.bodyOutline elseBody.outlines))]
  | .while pos cond body =>
    [.binary pos .while (some cond.outline) (some (body.bodyOutline body.outlines))]
  | .block pos stmts => [.seq pos .block ((Stmt.allOutlines stmts).map some)]
  | .empty _ => []
  | .vars decl => decl.outlines
  | .expr _ value => [value.outline]

def Stmt.allOutlines : List Stmt → List (Tree Pos)
  | [] => []
  | s :: ss => s.outlines ++ Stmt.allOutlines ss

end

theorem Stmt.allOutlines_eq (ss : List Stmt) : Stmt.allOutlines ss = ss.flatMap Stmt.outlines := by
  induction ss with
  | nil => rfl
  | cons s ss ih => rw [Stmt.allOutlines, ih, List.flatMap_cons]

def Param.outline (p : Param) : Tree Pos :=
  .binary p.pos .declaration (some p.type.outline) (some p.declarator.outline)

def FunctionHead.signature (h : FunctionHead) : Tree Pos :=
  .unary h.declarator.namePos (.signature h.declarator.name)
    (some (.seq h.paramsPos .parameters ((h.params.map Param.outline).map some)))

def External.outlines : External → List (Tree Pos)
  | .prototype head => [.binary head.pos .forward (some head.type.outline) (some head.signature)]
  | .definition head body =>
    [.ternary head.pos .definition (some head.type.outline) (some head.signature)
      (some (.seq body.pos .block ((Stmt.allOutlines body.stmts).map some)))]
  | .vars decl => decl.outlines

/-- What a program is built to, without the arena. -/
def Program.outline (p : Program) : Tree Pos :=
  .seq p.pos .program ((p.externals.flatMap External.outlines).map some)

/-! ## Building gives the outline

Each step of the building makes the node that the outline has there. -/

/-- The tree that is built has the outline `t`. -/
def Outlined (t : Tree Pos) (x : Alloc Node) : Prop := Yields (fun n => n.map Stamp.pos = t) x

/-- The trees that are built have the outlines `ts`. -/
def AllOutlined (ts : List (Tree Pos)) (x : Alloc (List Node)) : Prop :=
  Yields (fun ns => ns.map (Tree.map Stamp.pos) = ts) x

theorem outlined_allocAt {make : Stamp → Node}
    (h : ∀ stamp, stamp.pos = pos → (make stamp).map Stamp.pos = t) :
    Outlined t (Arena.allocAt pos make) :=
  fun _ => h _ rfl

theorem outlined_leaf (pos : Pos) (form : Leaf) :
    Outlined (.leaf pos form) (Arena.allocAt pos (.leaf · form)) :=
  outlined_allocAt fun _ hpos => congrArg (Tree.leaf · form) hpos

theorem outlined_binary {form : BinaryForm} {y : Alloc Node} {left right : Tree Pos}
    (hleft : Outlined left x) (hright : Outlined right y) :
    Outlined (.binary pos form (some left) (some right)) (do
      let a ← x
      let b ← y
      Arena.allocAt pos (.binary · form (some a) (some b))) := by
  refine hleft.bind fun a ha => hright.bind fun b hb => outlined_allocAt fun stamp hpos => ?_
  rw [Tree.map, Tree.mapChild, Tree.mapChild, ha, hb, hpos]

theorem map_seq_some (stamp : Stamp) (form : SeqForm) (ns : List Node) :
    (Tree.seq stamp form (ns.map some)).map Stamp.pos =
      .seq stamp.pos form ((ns.map (Tree.map Stamp.pos)).map some) := by
  have hchildren : (Tree.mapChild Stamp.pos ∘ some : Node → Option (Tree Pos)) =
      some ∘ Tree.map Stamp.pos :=
    rfl
  rw [Tree.map, Tree.mapItems_eq_map, List.map_map, List.map_map, hchildren]

theorem outlined_withItems {form : SeqForm} {items : Alloc (List Node)} (h : AllOutlined ts items) :
    Outlined (.seq pos form (ts.map some)) (withItems pos form items) := by
  refine yields_withItems_of h fun stamp ns hpos hns => ?_
  rw [map_seq_some, hns, hpos]

theorem AllOutlined.singleton (h : Outlined t x) : AllOutlined [t] (do return [← x]) :=
  h.bind fun _ hn => .pure (congrArg ([·]) hn)

theorem AllOutlined.append {ts' : List (Tree Pos)} {x y : Alloc (List Node)} (hx : AllOutlined ts x)
    (hy : AllOutlined ts' y) :
    AllOutlined (ts ++ ts') (do
      let ns ← x
      let ms ← y
      return ns ++ ms) := by
  refine hx.bind fun ns hns => hy.bind fun ms hms => .pure ?_
  rw [List.map_append, hns, hms]

mutual

/-- By recursion on the expression, like the building. -/
theorem Expr.outlined_build : (e : Expr) → Outlined e.outline e.build
  | .int pos value => outlined_leaf pos _
  | .str pos contents => outlined_leaf pos _
  | .name pos ident => outlined_leaf pos _
  | .call pos callee argsPos args => by
    rw [Expr.build, Expr.outline]
    refine (outlined_withItems (Expr.outlined_buildAll args)).bind fun list hlist => ?_
    refine outlined_allocAt fun stamp hpos => ?_
    rw [Tree.map, Tree.mapChild, hlist, hpos]
  | .neg pos operand => by
    rw [Expr.build, Expr.outline]
    refine operand.outlined_build.bind fun n hn => (outlined_leaf pos _).bind fun zero hzero => ?_
    refine outlined_allocAt fun stamp hpos => ?_
    rw [Tree.map, Tree.mapChild, Tree.mapChild, hn, hzero, hpos]
  | .binary pos op left right => by
    rw [Expr.build, Expr.outline]
    exact outlined_binary left.outlined_build right.outlined_build
  | .assign pos target value => by
    rw [Expr.build, Expr.outline]
    exact outlined_binary target.outlined_build value.outlined_build

theorem Expr.outlined_buildAll :
    (es : List Expr) → AllOutlined (Expr.outlines es) (Expr.buildAll es)
  | [] => .pure rfl
  | e :: es => by
    rw [Expr.buildAll, Expr.outlines]
    refine e.outlined_build.bind fun n hn => (Expr.outlined_buildAll es).bind fun ns hns => .pure ?_
    rw [List.map_cons, hn, hns]

end

theorem TypeSpec.outlined_build (t : TypeSpec) : Outlined t.outline t.build := outlined_leaf t.pos _

theorem Declarator.outlined_build (d : Declarator) : Outlined d.outline d.build :=
  outlined_leaf d.pos _

/-- A copy has the outline of what it is a copy of. -/
theorem outlined_copy {n : Node} (h : n.map Stamp.pos = t) : Outlined t n.copy :=
  fun a => (n.map_copy a).trans h

theorem InitDeclarator.outlined_build (pos : Pos) {name : Node} (d : InitDeclarator)
    (htype : typeNode.map Stamp.pos = type.outline)
    (hname : name.map Stamp.pos = d.declarator.outline) :
    AllOutlined (d.outlines pos type) (InitDeclarator.build pos typeNode name d.init) := by
  have hforward : Outlined (.binary pos .forward (some type.outline) (some d.declarator.outline))
      (Arena.allocAt pos (.binary · .forward (some typeNode) (some name))) :=
    outlined_allocAt fun stamp hpos => by
      rw [Tree.map, Tree.mapChild, Tree.mapChild, htype, hname, hpos]
  obtain ⟨declarator, init⟩ := d
  cases init with
  | none => exact hforward.bind fun decl hdecl => .pure (congrArg ([·]) hdecl)
  | some init =>
    refine hforward.bind fun decl hdecl => init.value.outlined_build.bind fun value hvalue => ?_
    refine (outlined_copy hname).bind fun target htarget => ?_
    refine Yields.bind (P := fun n => n.map Stamp.pos = .binary init.pos .assign
      (some declarator.outline) (some init.value.outline)) ?_ fun assign hassign => .pure ?_
    · refine outlined_allocAt fun stamp hpos => ?_
      rw [Tree.map, Tree.mapChild, Tree.mapChild, htarget, hvalue, hpos]
    · exact congrArg₂ (fun s t => [s, t]) hdecl hassign

theorem InitDeclarator.outlined_buildMore (pos : Pos)
    (htype : typeNode.map Stamp.pos = type.outline) (ds : List InitDeclarator) :
    AllOutlined (ds.flatMap (InitDeclarator.outlines pos type))
      (InitDeclarator.buildMore pos typeNode ds) := by
  induction ds with
  | nil => exact .pure rfl
  | cons d ds ih =>
    refine d.declarator.outlined_build.bind fun name hname => (outlined_copy htype).bind
      fun copy hcopy => ?_
    exact (InitDeclarator.outlined_build pos d hcopy hname).append ih

theorem VarDecl.outlined_build (d : VarDecl) : AllOutlined d.outlines d.build := by
  refine d.type.outlined_build.bind fun type htype => d.first.declarator.outlined_build.bind
    fun name hname => ?_
  exact (InitDeclarator.outlined_build d.pos d.first htype hname).append
    (InitDeclarator.outlined_buildMore d.pos htype d.more)

theorem Stmt.outlined_asBody (s : Stmt) {ns : List Node}
    (h : ns.map (Tree.map Stamp.pos) = ts) : Outlined (s.bodyOutline ts) (s.asBody ns) := by
  subst h
  have hblock : Outlined (.seq s.pos .block ((ns.map (Tree.map Stamp.pos)).map some))
      (Arena.allocAt s.pos (.seq · .block (ns.map some))) :=
    outlined_allocAt fun stamp hpos => by rw [map_seq_some, hpos]
  cases s with
  | block pos stmts =>
    rcases ns with _ | ⟨n, _ | ⟨n', ns⟩⟩
    · exact hblock
    · exact .pure rfl
    · exact hblock
  | _ => exact hblock

mutual

/-- A body that leaves one node is this node, and any other a block. -/
theorem Stmt.outlined_build : (s : Stmt) → AllOutlined s.outlines s.build
  | .ret pos value => by
    rw [Stmt.build, Stmt.outlines]
    have hvalue : Yields (fun c => Tree.mapChild Stamp.pos c = value.map Expr.outline)
        (value.mapM Expr.build) := by
      cases value with
      | none => exact .pure rfl
      | some e => exact fun a => congrArg some (e.outlined_build a)
    refine hvalue.bind fun c hc => AllOutlined.singleton (outlined_allocAt fun stamp hpos => ?_)
    rw [Tree.map, hc, hpos]
  | .ifThen pos cond body => by
    rw [Stmt.build, Stmt.outlines]
    refine cond.outlined_build.bind fun c hc => body.outlined_build.bind fun ns hns => ?_
    refine (body.outlined_asBody hns).bind fun b hb => AllOutlined.singleton
      (outlined_allocAt fun stamp hpos => ?_)
    rw [Tree.map, Tree.mapChild, Tree.mapChild, hc, hb, hpos]
  | .ifThenElse pos cond thenBody elseBody => by
    rw [Stmt.build, Stmt.outlines]
    refine cond.outlined_build.bind fun c hc => thenBody.outlined_build.bind fun ns hns => ?_
    refine (thenBody.outlined_asBody hns).bind fun b hb => elseBody.outlined_build.bind
      fun ms hms => ?_
    refine (elseBody.outlined_asBody hms).bind fun b' hb' => AllOutlined.singleton
      (outlined_allocAt fun stamp hpos => ?_)
    rw [Tree.map, Tree.mapChild, Tree.mapChild, Tree.mapChild, hc, hb, hb', hpos]
  | .while pos cond body => by
    rw [Stmt.build, Stmt.outlines]
    refine cond.outlined_build.bind fun c hc => body.outlined_build.bind fun ns hns => ?_
    refine (body.outlined_asBody hns).bind fun b hb => AllOutlined.singleton
      (outlined_allocAt fun stamp hpos => ?_)
    rw [Tree.map, Tree.mapChild, Tree.mapChild, hc, hb, hpos]
  | .block pos stmts => by
    rw [Stmt.build, Stmt.outlines]
    exact .singleton (outlined_withItems (Stmt.outlined_buildAll stmts))
  | .empty _ => .pure rfl
  | .vars decl => by
    rw [Stmt.build, Stmt.outlines]
    exact decl.outlined_build
  | .expr _ value => by
    rw [Stmt.build, Stmt.outlines]
    exact .singleton value.outlined_build

theorem Stmt.outlined_buildAll :
    (ss : List Stmt) → AllOutlined (Stmt.allOutlines ss) (Stmt.buildAll ss)
  | [] => .pure rfl
  | s :: ss => by
    rw [Stmt.buildAll, Stmt.allOutlines]
    exact s.outlined_build.append (Stmt.outlined_buildAll ss)

end

theorem Param.outlined_build (p : Param) : Outlined p.outline p.build :=
  outlined_binary p.type.outlined_build p.declarator.outlined_build

theorem Param.outlined_mapM (ps : List Param) :
    AllOutlined (ps.map Param.outline) (ps.mapM Param.build) := by
  induction ps with
  | nil => exact .pure rfl
  | cons p ps ih =>
    rw [List.mapM_cons]
    refine p.outlined_build.bind fun n hn => ih.bind fun ns hns => .pure ?_
    rw [List.map_cons, List.map_cons, hn, hns]

theorem FunctionHead.outlined_build (h : FunctionHead) :
    Yields (fun p => p.1.map Stamp.pos = h.type.outline ∧
      p.2.map Stamp.pos = h.signature) h.build := by
  refine h.type.outlined_build.bind fun type htype => h.declarator.outlined_build.bind fun _ _ => ?_
  refine (outlined_withItems (Param.outlined_mapM h.params)).bind fun params hparams => ?_
  refine Yields.bind (P := fun n => n.map Stamp.pos = h.signature) ?_ fun signature hsignature =>
    .pure ⟨htype, hsignature⟩
  refine outlined_allocAt fun stamp hpos => ?_
  rw [Tree.map, Tree.mapChild, hparams, hpos, FunctionHead.signature]

theorem External.outlined_build (e : External) : AllOutlined e.outlines e.build := by
  cases e with
  | prototype head =>
    refine head.outlined_build.bind fun p hp => AllOutlined.singleton
      (outlined_allocAt fun stamp hpos => ?_)
    rw [Tree.map, Tree.mapChild, Tree.mapChild, hp.1, hp.2, hpos]
  | definition head body =>
    refine head.outlined_build.bind fun p hp => ?_
    refine (outlined_withItems (Stmt.outlined_buildAll body.stmts)).bind fun b hb => ?_
    refine AllOutlined.singleton (outlined_allocAt fun stamp hpos => ?_)
    rw [Tree.map, Tree.mapChild, Tree.mapChild, Tree.mapChild, hp.1, hp.2, hb, hpos]
  | vars decl => exact decl.outlined_build

theorem External.outlined_buildAll (es : List External) :
    AllOutlined (es.flatMap External.outlines) (External.buildAll es) := by
  induction es with
  | nil => exact .pure rfl
  | cons e es ih => exact e.outlined_build.append ih

theorem Program.outlined_build (p : Program) : Outlined p.outline p.build :=
  outlined_withItems (External.outlined_buildAll p.externals)

end Surface

theorem File.outline_of_parse {generation : UInt32} {path : String} {file : File} {root : Node}
    (h : File.parse generation path text = .ok file) (hroot : file.root = some root) :
    ∃ program, Surface.Program.ofText text = .ok program ∧
      root.map Stamp.pos = program.outline := by
  obtain ⟨program, hread, hbuilt⟩ := File.program_of_parse h
  obtain rfl := Option.mem_unique hroot hbuilt
  exact ⟨program, hread, program.outlined_build _⟩

theorem File.parse_outline {program : Surface.Program}
    (h : Surface.Program.ofText text = .ok program) (generation : UInt32) (path : String) :
    ∃ file root, File.parse generation path text = .ok file ∧ file.root = some root ∧
      root.map Stamp.pos = program.outline :=
  ⟨_, _, File.parse_eq_ok_iff.mpr ⟨program, h, rfl⟩, rfl, program.outlined_build _⟩

end CSubset
