import CSubset.Proofs.Folding.Copies
import CSubset.Proofs.Tree.Parsed
import CSubset.Proofs.Tree.Whole

/-!
# Trees of the right form

A node can be built with any children, but the reader builds only some of these trees: operands are
expressions, bodies are lists of statements, parameters declare one name each, and that is a word
(`Node.IsExpression`, `Node.IsStatement`, `Node.IsMember`). Every text that can be read gives such a
tree (`File.members_of_parse`), and so does folding it (`File.members_of_fold`). In a tree of the
right form no child is missing that lowering needs (`Node.whole_of_members`).
-/

namespace CSubset

/-- A form of an expression with two operands, with an operator that exists. -/
inductive BinaryForm.IsOperator : BinaryForm → Prop
  | arithmetic (op : ArithOp) : IsOperator (.arithmetic (.known op))
  | bitwise (op : BitOp) : IsOperator (.bitwise (.known op))
  | comparison (op : CmpOp) : IsOperator (.comparison (.known op))
  | boolean (op : BoolOp) : IsOperator (.boolean (.known op))
  | assign : IsOperator .assign

namespace Node

variable {P : Node → Prop} {n m : Node} {items : List (Option Node)}

/-! ## The forms -/

/-- The target of an assignment may have stars, left over from a declaration. -/
inductive IsExpression : Node → Prop
  | int {stamp : Stamp} (value : Int32) : IsExpression (.leaf stamp (.intConst value))
  | str {stamp : Stamp} (contents : String) :
    IsExpression (.leaf stamp (.strConst (Text.Utf8.encode contents)))
  | name {stamp : Stamp} (x : String) (stars : Int) : IsExpression (.leaf stamp (.names [x] stars))
  | call {stamp place : Stamp} (callee : String) {args : List (Option Node)} (hthere : none ∉ args)
    (hargs : ∀ n, some n ∈ args → IsExpression n) :
    IsExpression (.unary stamp (.call callee) (some (.seq place .parameters args)))
  | operator {stamp : Stamp} {form : BinaryForm} {left right : Node} (hform : form.IsOperator)
    (hleft : IsExpression left) (hright : IsExpression right) :
    IsExpression (.binary stamp form (some left) (some right))

/-- A type and one name of that type, which is a word. -/
inductive IsTyping : Option Node → Option Node → Prop
  | mk {stamp place : Stamp} (tag : Coded TypeTag) (isConst : Bool) {x : String} (hx : IsWord x)
    (stars : Int) :
    IsTyping (some (.leaf stamp (.type tag isConst))) (some (.leaf place (.names [x] stars)))

/-- An expression or a declaration is a statement of its own. -/
inductive IsStatement : Node → Prop
  | expression {n : Node} (h : IsExpression n) : IsStatement n
  | declaration {stamp : Stamp} {type name : Option Node} (h : IsTyping type name) :
    IsStatement (.binary stamp .forward type name)
  | ret {stamp : Stamp} {value : Option Node} (hvalue : ∀ n, value = some n → IsExpression n) :
    IsStatement (.unary stamp .ret value)
  | block {stamp : Stamp} {items : List (Option Node)} (hthere : none ∉ items)
    (hitems : ∀ n, some n ∈ items → IsStatement n) : IsStatement (.seq stamp .block items)
  | ifThen {stamp : Stamp} {cond body : Node} (hcond : IsExpression cond)
    (hbody : IsStatement body) :
    IsStatement (.binary stamp .ifThen (some cond) (some body))
  | loop {stamp : Stamp} {cond body : Node} (hcond : IsExpression cond) (hbody : IsStatement body) :
    IsStatement (.binary stamp .while (some cond) (some body))
  | ifThenElse {stamp : Stamp} {cond thenBody elseBody : Node} (hcond : IsExpression cond)
    (hthen : IsStatement thenBody) (helse : IsStatement elseBody) :
    IsStatement (.ternary stamp .ifThenElse (some cond) (some thenBody) (some elseBody))

/-- The declaration of a parameter. -/
inductive IsParameter : Node → Prop
  | mk {stamp : Stamp} {type name : Option Node} (h : IsTyping type name) :
    IsParameter (.binary stamp .declaration type name)

/-- A type and a function's name with its parameters. -/
inductive IsSignature : Node → Node → Prop
  | mk {stamp place list : Stamp} (tag : Coded TypeTag) (isConst : Bool) (name : String)
    {params : List (Option Node)}
    (hparams : AllItems IsParameter params) :
    IsSignature (.leaf stamp (.type tag isConst))
      (.unary place (.signature name) (some (.seq list .parameters params)))

/-- The first value of a variable outside functions is an assignment there. -/
inductive IsMember : Node → Prop
  | declaration {stamp : Stamp} {type name : Option Node} (h : IsTyping type name) :
    IsMember (.binary stamp .forward type name)
  | assign {stamp : Stamp} {left right : Node} (hleft : IsExpression left)
    (hright : IsExpression right) :
    IsMember (.binary stamp .assign (some left) (some right))
  | prototype {stamp : Stamp} {type signature : Node} (h : IsSignature type signature) :
    IsMember (.binary stamp .forward (some type) (some signature))
  | definition {stamp place : Stamp} {type signature : Node} {body : List (Option Node)}
    (h : IsSignature type signature)
    (hbody : AllItems IsStatement body) :
    IsMember (.ternary stamp .definition (some type) (some signature)
      (some (.seq place .block body)))

/-! ## Folded copies

By induction on the form. The copy of a node that is not arithmetic has its form, which each case
takes apart. -/

theorem AllItems.folded {items' : List (Option Node)} (h : AllItems P items)
    (hP : ∀ n, some n ∈ items → ∀ m, Folded n m → P m) (hitems : FoldedItems items items') :
    AllItems P items' := by
  constructor
  · intro hnone
    obtain ⟨child, hmem, hrel⟩ := exists_mem_of_forall₂ hitems hnone
    cases hrel with
    | none => exact h.1 hmem
  · intro m hm
    obtain ⟨child, hmem, hrel⟩ := exists_mem_of_forall₂ hitems hm
    cases hrel with
    | some hfolded => exact hP _ hmem m hfolded

/-- A constant that takes the place of arithmetic is an expression too. -/
theorem IsExpression.folded (h : n.IsExpression) : ∀ m, Folded n m → m.IsExpression := by
  induction h with
  | int value =>
    rintro _ ⟨⟩
    exact .int value
  | str contents =>
    rintro _ ⟨⟩
    exact .str contents
  | name x stars =>
    rintro _ ⟨⟩
    exact .name x stars
  | call callee hthere hargs ih =>
    intro m hm
    cases hm with
    | unary _ hchild =>
      obtain ⟨list, rfl, hlist⟩ := eq_some_of_rel hchild rfl
      cases hlist with
      | seq _ hitems =>
        have hall := AllItems.folded ⟨hthere, hargs⟩ ih hitems
        exact .call callee hall.1 hall.2
  | operator hform hleft hright ihl ihr =>
    intro m hm
    cases hm with
    | binary _ hleft' hright' =>
      obtain ⟨l, rfl, hl⟩ := eq_some_of_rel hleft' rfl
      obtain ⟨r, rfl, hr⟩ := eq_some_of_rel hright' rfl
      exact .operator hform (ihl l hl) (ihr r hr)
    | constant => exact .int _

theorem IsTyping.folded {type name type' name' : Option Node} (h : IsTyping type name)
    (htype : Option.Rel Folded type type') (hname : Option.Rel Folded name name') :
    IsTyping type' name' := by
  obtain ⟨tag, isConst, hx, stars⟩ := h
  obtain ⟨t, rfl, ht⟩ := eq_some_of_rel htype rfl
  obtain ⟨n, rfl, hn⟩ := eq_some_of_rel hname rfl
  cases ht
  cases hn
  exact .mk tag isConst hx stars

/-- Statements stay, with their parts folded. -/
theorem IsStatement.folded (h : n.IsStatement) : ∀ m, Folded n m → m.IsStatement := by
  induction h with
  | expression h => exact fun m hm => .expression (h.folded m hm)
  | declaration h =>
    intro m hm
    cases hm with
    | binary _ htype hname => exact .declaration (h.folded htype hname)
    | constant _ _ _ hform => exact absurd hform nofun
  | ret hvalue =>
    intro m hm
    cases hm with
    | unary _ hchild =>
      refine .ret fun e he => ?_
      subst he
      cases hchild with
      | some h => exact (hvalue _ rfl).folded e h
  | block hthere hitems ih =>
    intro m hm
    cases hm with
    | seq _ hfolded =>
      have hall := AllItems.folded ⟨hthere, hitems⟩ ih hfolded
      exact .block hall.1 hall.2
  | ifThen hcond hbody ih =>
    intro m hm
    cases hm with
    | binary _ hleft' hright' =>
      obtain ⟨c, rfl, hc⟩ := eq_some_of_rel hleft' rfl
      obtain ⟨b, rfl, hb⟩ := eq_some_of_rel hright' rfl
      exact .ifThen (hcond.folded c hc) (ih b hb)
    | constant _ _ _ hform => exact absurd hform nofun
  | loop hcond hbody ih =>
    intro m hm
    cases hm with
    | binary _ hleft' hright' =>
      obtain ⟨c, rfl, hc⟩ := eq_some_of_rel hleft' rfl
      obtain ⟨b, rfl, hb⟩ := eq_some_of_rel hright' rfl
      exact .loop (hcond.folded c hc) (ih b hb)
    | constant _ _ _ hform => exact absurd hform nofun
  | ifThenElse hcond hthen helse iht ihe =>
    intro m hm
    cases hm with
    | ternary _ h₁ h₂ h₃ =>
      obtain ⟨c, rfl, hc⟩ := eq_some_of_rel h₁ rfl
      obtain ⟨t, rfl, ht⟩ := eq_some_of_rel h₂ rfl
      obtain ⟨e, rfl, he⟩ := eq_some_of_rel h₃ rfl
      exact .ifThenElse (hcond.folded c hc) (iht t ht) (ihe e he)

theorem IsParameter.folded (h : n.IsParameter) (hm : Folded n m) : m.IsParameter := by
  obtain ⟨h⟩ := h
  cases hm with
  | binary _ htype hname => exact .mk (h.folded htype hname)
  | constant _ _ _ hform => exact absurd hform nofun

theorem IsSignature.folded {type signature type' signature' : Node} (h : IsSignature type signature)
    (htype : Folded type type') (hsignature : Folded signature signature') :
    IsSignature type' signature' := by
  obtain ⟨tag, isConst, name, hparams⟩ := h
  cases htype
  cases hsignature with
  | unary _ hchild =>
    obtain ⟨list, rfl, hlist⟩ := eq_some_of_rel hchild rfl
    cases hlist with
    | seq _ hitems =>
      exact .mk tag isConst name
        (hparams.folded (fun n hn m hm => (hparams.2 n hn).folded hm) hitems)

theorem IsMember.folded (h : n.IsMember) (hm : Folded n m) : m.IsMember := by
  cases h with
  | declaration h =>
    cases hm with
    | binary _ htype hname => exact .declaration (h.folded htype hname)
    | constant _ _ _ hform => exact absurd hform nofun
  | assign hleft hright =>
    cases hm with
    | binary _ hleft' hright' =>
      obtain ⟨l, rfl, hl⟩ := eq_some_of_rel hleft' rfl
      obtain ⟨r, rfl, hr⟩ := eq_some_of_rel hright' rfl
      exact .assign (hleft.folded l hl) (hright.folded r hr)
    | constant _ _ _ hform => exact absurd hform nofun
  | prototype h =>
    cases hm with
    | binary _ hleft' hright' =>
      obtain ⟨l, rfl, hl⟩ := eq_some_of_rel hleft' rfl
      obtain ⟨r, rfl, hr⟩ := eq_some_of_rel hright' rfl
      exact .prototype (h.folded hl hr)
    | constant _ _ _ hform => exact absurd hform nofun
  | definition h hbody =>
    cases hm with
    | ternary _ h₁ h₂ h₃ =>
      obtain ⟨t, rfl, ht⟩ := eq_some_of_rel h₁ rfl
      obtain ⟨s, rfl, hs⟩ := eq_some_of_rel h₂ rfl
      obtain ⟨b, rfl, hb⟩ := eq_some_of_rel h₃ rfl
      cases hb with
      | seq _ hitems =>
        exact .definition (h.folded ht hs) (hbody.folded (fun n hn => (hbody.2 n hn).folded) hitems)

/-! ## No gaps -/

/-- No node lacks a child that lowering needs, and variables have words as names. -/
abbrev Sound : Node → Prop := Throughout fun n => n.Complete ∧ n.GivesName IsWord

/-- A child that is there. -/
theorem of_eq_some (h : P n) : ∀ m, some n = some m → P m :=
  fun _ heq => Option.some.inj heq ▸ h

theorem IsExpression.sound (h : n.IsExpression) : n.Sound := by
  induction h with
  | int | str | name => exact .leaf ⟨trivial, trivial⟩
  | call callee hthere _ ih =>
    exact .unary ⟨trivial, trivial⟩ (of_eq_some (.seq ⟨hthere, trivial⟩ ih))
  | operator hform _ _ ihl ihr =>
    refine .binary ?_ (of_eq_some ihl) (of_eq_some ihr)
    cases hform <;> exact ⟨trivial, trivial⟩

theorem IsTyping.sound {type name : Option Node} (h : IsTyping type name) {form : BinaryForm}
    (hform : form = .declaration ∨ form = .forward) {stamp : Stamp} :
    Sound (.binary stamp form type name) := by
  obtain ⟨tag, isConst, hx, stars⟩ := h
  have hleaf {stamp : Stamp} {form : Leaf} : Sound (.leaf stamp form) := .leaf ⟨trivial, trivial⟩
  refine .binary ?_ (of_eq_some hleaf) (of_eq_some hleaf)
  rcases hform with rfl | rfl
  · exact ⟨⟨_, _, _, rfl⟩, hx⟩
  · exact ⟨Option.some_ne_none _, hx⟩

theorem IsStatement.sound (h : n.IsStatement) : n.Sound := by
  induction h with
  | expression h => exact h.sound
  | declaration h => exact h.sound (.inr rfl)
  | ret hvalue => exact .unary ⟨trivial, trivial⟩ fun n hn => (hvalue n hn).sound
  | block hthere _ ih => exact .seq ⟨hthere, trivial⟩ ih
  | ifThen hcond _ ih | loop hcond _ ih =>
    exact .binary ⟨trivial, trivial⟩ (of_eq_some hcond.sound) (of_eq_some ih)
  | ifThenElse hcond _ _ iht ihe =>
    exact .ternary ⟨trivial, trivial⟩ (of_eq_some hcond.sound) (of_eq_some iht) (of_eq_some ihe)

theorem IsSignature.sound {type signature : Node} (h : IsSignature type signature) :
    type.Sound ∧ signature.Sound := by
  obtain ⟨tag, isConst, name, hparams⟩ := h
  refine ⟨.leaf ⟨trivial, trivial⟩, .unary ⟨trivial, trivial⟩ (of_eq_some ?_)⟩
  refine .seq ⟨hparams.1, trivial⟩ fun n hn => ?_
  obtain ⟨h⟩ := hparams.2 n hn
  exact h.sound (.inl rfl)

theorem IsMember.sound (h : n.IsMember) : n.Sound := by
  cases h with
  | declaration h => exact h.sound (.inr rfl)
  | assign hleft hright => exact (IsExpression.operator .assign hleft hright).sound
  | prototype h =>
    refine .binary ⟨Option.some_ne_none _, ?_⟩ (of_eq_some h.sound.1) (of_eq_some h.sound.2)
    cases h
    trivial
  | definition h hbody =>
    refine .ternary ⟨trivial, trivial⟩ (of_eq_some h.sound.1) (of_eq_some h.sound.2) (of_eq_some ?_)
    exact .seq ⟨hbody.1, trivial⟩ fun n hn => (hbody.2 n hn).sound

/-- A program of the right form. -/
theorem sound_of_members {stamp : Stamp} (h : AllItems IsMember items) :
    Sound (.seq stamp .program items) :=
  .seq ⟨h.1, trivial⟩ fun n hn => (h.2 n hn).sound

theorem whole_of_members {stamp : Stamp} (h : AllItems IsMember items) :
    Whole (.seq stamp .program items) :=
  (sound_of_members h).mono fun _ => And.left

end Node

/-! ## Trees of programs

One lemma for each kind of phrase that is built: whatever the arena, the nodes have the form. -/

namespace Surface

open Node

variable {n : Node} {P : Node → Prop}

/-- All nodes satisfy `P`. -/
abbrev AllGood (P : Node → Prop) (ns : List Node) : Prop := ∀ n ∈ ns, P n

theorem AllGood.append {ns ms : List Node} (hns : AllGood P ns) (hms : AllGood P ms) :
    AllGood P (ns ++ ms) :=
  List.forall_mem_append.mpr ⟨hns, hms⟩

theorem yields_singleton {x : Alloc Node} (h : Yields P x) : Yields (AllGood P) (do return [← x]) :=
  h.bind fun _ hn => .pure (List.forall_mem_singleton.mpr hn)

/-- A list node whose members satisfy `P`. -/
def IsListOf (form : SeqForm) (P : Node → Prop) (n : Node) : Prop :=
  ∃ stamp items, n = .seq stamp form items ∧ AllItems P items

/-- A type node. -/
def IsType (n : Node) : Prop := ∃ stamp tag isConst, n = .leaf stamp (.type tag isConst)

theorem TypeSpec.isType_build (t : TypeSpec) : Yields IsType t.build :=
  yields_allocAt fun stamp => ⟨stamp, _, _, rfl⟩

theorem IsType.copy (h : IsType n) : Yields IsType n.copy := by
  obtain ⟨stamp, tag, isConst, rfl⟩ := h
  exact fun a => ⟨_, tag, isConst, rfl⟩

/-- A node that names one variable. -/
def IsName (n : Node) : Prop := ∃ stamp x stars, n = .leaf stamp (.names [x] stars) ∧ IsWord x

theorem IsName.copy (h : IsName n) : Yields IsName n.copy := by
  obtain ⟨stamp, x, stars, rfl, hx⟩ := h
  exact fun a => ⟨_, x, stars, rfl, hx⟩

theorem Declarator.isName_build {d : Declarator} (hd : IsWord d.name) : Yields IsName d.build :=
  yields_allocAt fun stamp => ⟨stamp, _, _, rfl, hd⟩

theorem IsType.typing {type name : Node} (htype : IsType type) (hname : IsName name) :
    IsTyping (some type) (some name) := by
  obtain ⟨_, tag, isConst, rfl⟩ := htype
  obtain ⟨_, _, stars, rfl, hx⟩ := hname
  exact .mk tag isConst hx stars

/-- What a variable leaves in a list: its declaration, and the assignment of its first value. -/
def IsDeclared (n : Node) : Prop :=
  (∃ stamp type name, n = .binary stamp .forward type name ∧ IsTyping type name) ∨
    ∃ stamp left right, n = .binary stamp .assign (some left) (some right) ∧ IsExpression left ∧
    IsExpression right

theorem IsDeclared.statement (h : IsDeclared n) : n.IsStatement := by
  rcases h with ⟨stamp, type, name, rfl, h⟩ | ⟨stamp, left, right, rfl, hleft, hright⟩
  · exact .declaration h
  · exact .expression (.operator .assign hleft hright)

theorem IsDeclared.member (h : IsDeclared n) : n.IsMember := by
  rcases h with ⟨stamp, type, name, rfl, h⟩ | ⟨stamp, left, right, rfl, hleft, hright⟩
  · exact .declaration h
  · exact .assign hleft hright

theorem isOperator_binaryForm (op : Operator) : (binaryForm op).IsOperator := by
  cases op with
  | arith op => exact .arithmetic op
  | bit op => exact .bitwise op
  | cmp op => exact .comparison op
  | bool op => exact .boolean op

section Build

variable {pos : Pos} {type name : Node} {form : BinaryForm}

theorem yields_withItems {form : SeqForm} {items : Alloc (List Node)}
    (h : Yields (AllGood P) items) : Yields (IsListOf form P) (withItems pos form items) :=
  yields_withItems_of h fun _ _ _ hns => ⟨_, _, rfl, .of_map_some hns⟩

theorem yields_operator {left right : Node} (hform : form.IsOperator) (hleft : IsExpression left)
    (hright : IsExpression right) :
    Yields IsExpression (Arena.allocAt pos (.binary · form (some left) (some right))) :=
  yields_allocAt fun _ => .operator hform hleft hright

mutual

/-- A minus sign is built as a difference from zero. -/
theorem Expr.yields_build : (e : Expr) → Yields IsExpression e.build
  | .int _ value => yields_allocAt fun _ => .int value
  | .str _ contents => yields_allocAt fun _ => .str contents
  | .name _ ident => yields_allocAt fun _ => .name ident 0
  | .call _ callee _ args => by
    rw [Expr.build]
    refine (yields_withItems (Expr.yields_buildAll args)).bind ?_
    rintro _ ⟨place, items, rfl, hitems⟩
    exact yields_allocAt fun _ => .call callee hitems.1 hitems.2
  | .neg _ operand => by
    rw [Expr.build]
    refine operand.yields_build.bind fun n hn => ?_
    refine Yields.bind (P := IsExpression) (yields_allocAt fun _ => .int 0) fun zero hzero => ?_
    exact yields_operator (.arithmetic .sub) hzero hn
  | .binary _ op left right => by
    rw [Expr.build]
    refine left.yields_build.bind fun l hl => right.yields_build.bind fun r hr => ?_
    exact yields_operator (isOperator_binaryForm op) hl hr
  | .assign _ target value => by
    rw [Expr.build]
    refine target.yields_build.bind fun l hl => value.yields_build.bind fun r hr => ?_
    exact yields_operator .assign hl hr

theorem Expr.yields_buildAll : (es : List Expr) → Yields (AllGood IsExpression) (Expr.buildAll es)
  | [] => .pure nofun
  | e :: es => by
    rw [Expr.buildAll]
    refine e.yields_build.bind fun n hn => (Expr.yields_buildAll es).bind fun ns hns => .pure ?_
    exact List.forall_mem_cons.mpr ⟨hn, hns⟩

end

theorem InitDeclarator.yields_build (htype : IsType type) (hname : IsName name)
    (init : Option Initializer) :
    Yields (AllGood IsDeclared) (InitDeclarator.build pos type name init) := by
  have hdecl : Yields IsDeclared (Arena.allocAt pos (.binary · .forward (some type) (some name))) :=
    yields_allocAt fun stamp => .inl ⟨stamp, _, _, rfl, htype.typing hname⟩
  refine hdecl.bind fun decl hdecl => ?_
  cases init with
  | none => exact .pure (List.forall_mem_singleton.mpr hdecl)
  | some init =>
    refine init.value.yields_build.bind fun value hvalue => hname.copy.bind ?_
    rintro _ ⟨place, x, stars, rfl, -⟩
    refine Yields.bind (P := IsDeclared) (yields_allocAt fun stamp => ?_) fun assign hassign =>
      .pure ?_
    · exact .inr ⟨stamp, _, _, rfl, .name x stars, hvalue⟩
    · exact List.forall_mem_cons.mpr ⟨hdecl, List.forall_mem_singleton.mpr hassign⟩

theorem InitDeclarator.yields_buildMore (htype : IsType type) {ds : List InitDeclarator}
    (hds : ∀ d ∈ ds, IsWord d.declarator.name) :
    Yields (AllGood IsDeclared) (InitDeclarator.buildMore pos type ds) := by
  induction ds with
  | nil => exact .pure nofun
  | cons d ds ih =>
    obtain ⟨hd, hds⟩ := List.forall_mem_cons.mp hds
    rw [InitDeclarator.buildMore]
    refine (Declarator.isName_build hd).bind fun name hname => htype.copy.bind
      fun type' htype' => ?_
    refine (InitDeclarator.yields_build htype' hname d.init).bind fun ns hns => ?_
    exact (ih hds).bind fun more hmore => .pure (hns.append hmore)

theorem VarDecl.yields_build {d : VarDecl} (hd : ∀ x ∈ d.names, IsWord x) :
    Yields (AllGood IsDeclared) d.build := by
  obtain ⟨hfirst, hmore⟩ := List.forall_mem_cons.mp (List.forall_mem_map.mp hd)
  refine d.type.isType_build.bind fun type htype => (Declarator.isName_build hfirst).bind
    fun name hname => ?_
  refine (InitDeclarator.yields_build htype hname d.first.init).bind fun ns hns => ?_
  exact (InitDeclarator.yields_buildMore htype hmore).bind fun more hmore => .pure
    (hns.append hmore)

theorem Stmt.yields_asBody {s : Stmt} {ns : List Node} (hns : AllGood IsStatement ns) :
    Yields IsStatement (s.asBody ns) := by
  unfold Stmt.asBody
  split
  next n => exact .pure (hns n List.mem_cons_self)
  next =>
    have hall : AllItems IsStatement (ns.map some) := .of_map_some hns
    exact yields_allocAt fun _ => .block hall.1 hall.2

mutual

/-- An empty statement leaves nothing, and a declaration leaves a node for each variable and for
each first value. -/
theorem Stmt.yields_build :
    (s : Stmt) → (∀ x ∈ s.names, IsWord x) → Yields (AllGood IsStatement) s.build
  | .ret _ value, _ => by
    rw [Stmt.build]
    -- a value that is returned may be missing
    have hvalue : Yields (fun v => ∀ n, v = some n → IsExpression n) (value.mapM Expr.build) := by
      cases value with
      | none => exact .pure nofun
      | some value => exact value.yields_build.bind fun n hn => .pure (of_eq_some hn)
    exact hvalue.bind fun v hv => yields_singleton (yields_allocAt fun _ => .ret hv)
  | .ifThen _ cond body, hnames => by
    rw [Stmt.build]
    refine cond.yields_build.bind fun c hc => (body.yields_build hnames).bind fun ns hns => ?_
    refine (Stmt.yields_asBody hns).bind fun b hb => yields_singleton ?_
    exact yields_allocAt fun _ => .ifThen hc hb
  | .ifThenElse _ cond thenBody elseBody, hnames => by
    obtain ⟨hthen, helse⟩ := List.forall_mem_append.mp hnames
    rw [Stmt.build]
    refine cond.yields_build.bind fun c hc => (thenBody.yields_build hthen).bind fun ns hns => ?_
    refine (Stmt.yields_asBody hns).bind fun b hb => (elseBody.yields_build helse).bind
      fun ms hms => ?_
    refine (Stmt.yields_asBody hms).bind fun b' hb' => yields_singleton ?_
    exact yields_allocAt fun _ => .ifThenElse hc hb hb'
  | .while _ cond body, hnames => by
    rw [Stmt.build]
    refine cond.yields_build.bind fun c hc => (body.yields_build hnames).bind fun ns hns => ?_
    refine (Stmt.yields_asBody hns).bind fun b hb => yields_singleton ?_
    exact yields_allocAt fun _ => .loop hc hb
  | .block _ stmts, hnames => by
    rw [Stmt.build]
    refine (yields_withItems (Stmt.yields_buildAll stmts hnames)).bind ?_
    rintro _ ⟨stamp, items, rfl, hitems⟩
    exact .pure (List.forall_mem_singleton.mpr (.block hitems.1 hitems.2))
  | .empty _, _ => .pure nofun
  | .vars _, hnames => fun a n hn => (VarDecl.yields_build hnames a n hn).statement
  | .expr _ value, _ => by
    rw [Stmt.build]
    exact yields_singleton fun a => .expression (value.yields_build a)

theorem Stmt.yields_buildAll :
    (ss : List Stmt) → (∀ x ∈ Stmt.allNames ss, IsWord x) → Yields (AllGood IsStatement)
      (Stmt.buildAll ss)
  | [], _ => .pure nofun
  | s :: ss, hnames => by
    obtain ⟨hs, hss⟩ := List.forall_mem_append.mp hnames
    rw [Stmt.buildAll]
    exact (s.yields_build hs).bind fun ns hns =>
      (Stmt.yields_buildAll ss hss).bind fun ms hms => .pure (hns.append hms)

end

theorem Param.yields_build {p : Param} (hp : IsWord p.declarator.name) :
    Yields IsParameter p.build := by
  refine p.type.isType_build.bind fun type htype => (Declarator.isName_build hp).bind
    fun name hname => ?_
  exact yields_allocAt fun _ => .mk (htype.typing hname)

theorem FunctionHead.yields_build {h : FunctionHead} (hnames : ∀ x ∈ h.names, IsWord x) :
    Yields (fun p => IsSignature p.1 p.2) h.build := by
  refine h.type.isType_build.bind ?_
  rintro _ ⟨stamp, tag, isConst, rfl⟩
  -- the node of the declarator is allocated, but it is no part of the tree
  refine Yields.bind (P := fun _ => True) (fun _ => trivial) fun _ _ => ?_
  have hparams : ∀ p ∈ h.params, Yields IsParameter p.build :=
    fun p hp => Param.yields_build (List.forall_mem_map.mp hnames p hp)
  refine (yields_withItems (.mapM hparams)).bind ?_
  rintro _ ⟨list, params, rfl, hparams⟩
  exact Yields.bind (P := IsSignature (.leaf stamp (.type tag isConst)))
    (yields_allocAt fun _ => .mk tag isConst _ hparams) fun _ hsignature => .pure hsignature

theorem External.yields_build {e : External} (hnames : ∀ x ∈ e.names, IsWord x) :
    Yields (AllGood IsMember) e.build := by
  cases e with
  | prototype head =>
    refine (FunctionHead.yields_build hnames).bind fun _ hhead => yields_singleton ?_
    exact yields_allocAt fun _ => .prototype hhead
  | definition head body =>
    obtain ⟨hhead, hbody⟩ := List.forall_mem_append.mp hnames
    refine (FunctionHead.yields_build hhead).bind fun _ hhead => ?_
    refine (yields_withItems (Stmt.yields_buildAll body.stmts hbody)).bind ?_
    rintro _ ⟨place, items, rfl, hitems⟩
    exact yields_singleton (yields_allocAt fun _ => .definition hhead hitems)
  | vars decl => exact fun a n hn => (VarDecl.yields_build hnames a n hn).member

theorem External.yields_buildAll {es : List External}
    (hnames : ∀ x ∈ es.flatMap External.names, IsWord x) :
    Yields (AllGood IsMember) (External.buildAll es) := by
  induction es with
  | nil => exact .pure nofun
  | cons e es ih =>
    rw [List.flatMap_cons] at hnames
    obtain ⟨he, hes⟩ := List.forall_mem_append.mp hnames
    rw [External.buildAll]
    exact (External.yields_build he).bind fun ns hns => (ih hes).bind fun ms hms => .pure
      (hns.append hms)

end Build

end Surface

/-! ## Whole files -/

section Parse

variable {generation : UInt32} {path : String} {text : List Char} {file : File}

/-- The members of a text that can be read have the right form. -/
theorem File.members_of_parse (h : File.parse generation path text = .ok file) :
    ∃ stamp items, file.root = some (.seq stamp .program items) ∧
      Node.AllItems Node.IsMember items := by
  obtain ⟨program, hread, hroot⟩ := File.program_of_parse h
  have hnames := Surface.Program.word_of_ofText hread
  obtain ⟨stamp, items, heq, hitems⟩ : Surface.IsListOf .program Node.IsMember
      (program.build.run (Arena.empty generation)).1 :=
    Surface.yields_withItems (Surface.External.yields_buildAll hnames) _
  exact ⟨stamp, items, heq ▸ hroot, hitems⟩

/-- So have the members of its folded copy. -/
theorem File.members_of_fold {generation' : UInt32} {folded : File}
    (hparse : File.parse generation path text = .ok file)
    (hfold : file.fold generation' = .ok folded) :
    ∃ stamp items, folded.root = some (.seq stamp .program items) ∧
      Node.AllItems Node.IsMember items := by
  obtain ⟨stamp, items, hroot, hitems⟩ := File.members_of_parse hparse
  obtain ⟨copy, hcopy, hfolded⟩ := eq_some_of_rel (Node.rel_of_fold hfold) hroot
  cases hfolded with
  | seq _ hcopies =>
    exact ⟨_, _, hcopy, hitems.folded (fun n hn _ hm => (hitems.2 n hn).folded hm) hcopies⟩

end Parse

end CSubset
