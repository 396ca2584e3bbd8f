import CSubset.Proofs.Layout.Programs
import CSubset.Proofs.Printing.Expressions
import CSubset.Proofs.Tree.Shape
import CSubset.Proofs.WellFormed.Trees

/-!
# Reading back printed programs

A program that is printed is read back as the same tree, but for identities and positions, however
its tokens are laid out (`parse_of_tokens`). For each kind of tree the printed tokens are a phrase,
and the syntax that this phrase spells builds the tree: for expressions in every context
(`printed_expression`), then for statements, functions and programs.

String constants have to hold texts. A constant with other bytes is read back from no text
(`stray_byte_not_read_back`).
-/

namespace CSubset.Printing

open Surface

section

variable {σ : Type} {pos : Pos} {ss : List Stmt}

/-! ## Declarations -/

theorem printed_type (l : σ) (tag : TypeTag) (isConst : Bool) :
    ReadsBack Phrase.TypeName (fun type => Builds (.leaf l (.type (.known tag) isConst)) type.build)
      (typeTokens (some (.leaf l (.type (.known tag) isConst)))) := by
  have htag : (fixed tag.keyword).kind.typeTag? = some tag := by cases tag <;> rfl
  have hspelled : Spelled (fixed tag.keyword) := by cases tag <;> exact .keyword (by decide)
  cases isConst with
  | true =>
    refine ⟨List.forall_mem_cons.mpr ⟨.keyword (by decide), List.forall_mem_singleton.mpr hspelled⟩,
      ⟨.unknown, tag, true⟩, ?_, yields_allocAt fun _ => rfl⟩
    exact .mk (.const (t := fixed .kwConst) rfl) htag .absent
  | false =>
    refine ⟨List.forall_mem_singleton.mpr hspelled, ⟨.unknown, tag, false⟩, ?_,
      yields_allocAt fun _ => rfl⟩
    exact .mk .absent htag .absent

theorem printed_name (l : σ) {x : String} (hx : IsIdentifier x) (stars : Nat) :
    ReadsBack Phrase.Declared (fun d => Builds (.leaf l (.names [x] stars)) d.build)
      (starTokens (some (.leaf l (.names [x] stars)))) := by
  have hstars : ∀ s ∈ List.replicate stars (fixed .star), s = fixed .star :=
    fun s hs => List.eq_of_mem_replicate hs
  refine ⟨List.forall_mem_append.mpr ⟨fun s hs => hstars s hs ▸ .symbol (by decide),
    List.forall_mem_singleton.mpr (.name hx)⟩,
    ⟨_, (List.replicate stars (fixed .star)).length, .unknown, x⟩, .mk (t := named x)
    (fun s hs => hstars s hs ▸ rfl) rfl, ?_⟩
  refine yields_allocAt fun _ => ?_
  rw [List.length_replicate]
  rfl

theorem printed_typing {type name : Tree σ} (h : Typing type name) :
    ReadsBack Phrase.TypeName (fun spec => Builds type spec.build) (typeTokens (some type)) ∧
      ReadsBack Phrase.Declared (fun d => Builds name d.build) (starTokens (some name)) := by
  obtain ⟨l, l', tag, isConst, hx, stars⟩ := h
  exact ⟨printed_type l tag isConst, printed_name l' hx stars⟩

theorem printed_declaration (l : σ) {type name : Tree σ} (h : Typing type name) :
    ReadsBack Phrase.Declaration
      (fun decl => BuildsAll [.binary l .forward (some type) (some name)] decl.build)
      (stmtTokens (.binary l .forward (some type) (some name))) := by
  have hdeclared : declaredTokens (some name) = starTokens (some name) := by
    obtain ⟨l, l', tag, isConst, hx, stars⟩ := h
    rfl
  have htokens : stmtTokens (.binary l .forward (some type) (some name)) =
      typeTokens (some type) ++ (starTokens (some name) ++ [fixed .semicolon]) := by
    rw [← hdeclared]
    rfl
  obtain ⟨⟨htype, spec, hspec, hbuild⟩, hname, d, hd, hbuild'⟩ := printed_typing h
  rw [htokens]
  refine ⟨?_, ⟨spec.pos, spec, ⟨d, none⟩, []⟩, .mk hspec hd (.last .absent rfl), ?_⟩
  · refine List.forall_mem_append.mpr ⟨htype, List.forall_mem_append.mpr ⟨hname, ?_⟩⟩
    exact List.forall_mem_singleton.mpr (.symbol (by decide))
  · refine hbuild.bind fun t ht => hbuild'.bind fun n hn => ?_
    refine Yields.bind (P := fun ns : List Node => ns.map Tree.shape =
      [Tree.shape (.binary l .forward (some type) (some name))])
      ?_ fun ns hns => .pure ?_
    · refine Yields.bind (P := fun m : Node => m.shape = _) (yields_allocAt fun _ => ?_) fun m hm =>
        .pure (congrArg (fun s => [s]) hm)
      exact congrArg₂ (fun s t => Tree.binary () .forward (some s) (some t)) ht hn
    · rw [List.append_nil]
      exact hns

/-! ## Statements -/

/-- What is printed for the statement is read back as the tree. -/
def PrintedStatement (t : Tree σ) : Prop :=
  ReadsBack Phrase.Statement (fun stmt => BuildsAll [t] stmt.build) (stmtTokens t)

theorem stmtTokens_expression {t : Tree σ} (h : Expression IsText t) :
    stmtTokens t = exprTokens 0 t ++ [fixed .semicolon] := by
  cases h with
  | operation l op _ _ => cases op <;> rfl
  | _ => rfl

theorem printedStatement_expression {t : Tree σ} (h : Expression IsText t) :
    PrintedStatement t := by
  obtain ⟨hspelled, e, hphrase, hbuild⟩ := printed_expression h 0 (Nat.zero_le 11)
  obtain ⟨u, us, hcons⟩ := List.exists_cons_of_ne_nil (Phrase.Assignment.ne_nil hphrase)
  rw [PrintedStatement, stmtTokens_expression h]
  refine ⟨List.forall_mem_append.mpr
    ⟨hspelled, List.forall_mem_singleton.mpr (.symbol (by decide))⟩, .expr u.pos e, ?_,
    .singleton hbuild⟩
  have hassignment : Phrase.Assignment (exprTokens 0 t) e := hphrase
  rw [hcons] at hassignment ⊢
  exact .expr hassignment rfl

/-- The statements of a block, one after the other. -/
theorem printed_statements {stmts : List (Tree σ)} (h : ∀ s ∈ stmts, PrintedStatement s) :
    (∀ u ∈ blockTokens (stmts.map some), Spelled u) ∧
      ∃ ss, Phrase.Statements (blockTokens (stmts.map some) ++ [fixed .rightBrace]) ss ∧
        BuildsAll stmts (Stmt.buildAll ss) := by
  induction stmts with
  | nil => exact ⟨nofun, [], .nil rfl, .pure rfl⟩
  | cons t stmts ih =>
    obtain ⟨⟨hspelled, stmt, hphrase, hbuild⟩, hmore⟩ := List.forall_mem_cons.mp h
    obtain ⟨hspelled', ss, hphrases, hbuilds⟩ := ih hmore
    refine ⟨List.forall_mem_append.mpr ⟨hspelled, hspelled'⟩, stmt :: ss, ?_, hbuild.append hbuilds⟩
    show Phrase.Statements (stmtTokens t ++ blockTokens (stmts.map some) ++
      [fixed .rightBrace]) (stmt :: ss)
    rw [List.append_assoc]
    exact .cons hphrase hphrases

theorem printed_block (l : σ) {stmts : List (Tree σ)} (h : ∀ s ∈ stmts, PrintedStatement s) :
    ReadsBack (fun ts ss => Phrase.Statement ts (.block .unknown ss))
      (fun ss => BuildsAll [.seq l .block (stmts.map some)] (Stmt.build (.block .unknown ss)))
      (stmtTokens (.seq l .block (stmts.map some))) := by
  obtain ⟨hspelled, ss, hphrases, hbuilds⟩ := printed_statements h
  refine ⟨spelled_between hspelled (by decide) (by decide), ss, .block (t := fixed .leftBrace)
    rfl hphrases, ?_⟩
  exact .singleton (builds_withItems l hbuilds)

/-- A block under a condition is the body itself. -/
theorem builds_asBody {t : Tree σ} {ns : List Node}
    (h : ns.map Tree.shape = [t].map Tree.shape) : Builds t (Stmt.asBody (.block pos ss) ns) := by
  obtain ⟨n, rfl, hn⟩ := List.map_eq_singleton_iff.mp h
  exact .pure hn

theorem printed_condition {cond : Tree σ} (h : Expression IsText cond) :
    ReadsBack Phrase.Condition (fun e => Builds cond e.build)
      (between .leftParen (exprTokens 0 cond) .rightParen) := by
  obtain ⟨hspelled, e, hphrase, hbuild⟩ := printed_expression h 0 (Nat.zero_le 11)
  exact ⟨spelled_between hspelled (by decide) (by decide), e, .mk (p := fixed .leftParen) rfl
    hphrase rfl, hbuild⟩

/-- A condition or a loop, made of a keyword, a condition and a body. -/
theorem builds_guarded (l : σ) (form : BinaryForm) {pos' : Pos} {cond body : Tree σ} {e : Expr}
    (hcond : Builds cond e.build) (hbody : BuildsAll [body] (Stmt.build (.block pos' ss))) :
    BuildsAll [.binary l form (some cond) (some body)] (do
      let cond ← e.build
      let body ← Stmt.asBody (.block pos' ss) (← Stmt.build (.block pos' ss))
      return [← Arena.allocAt pos (.binary · form (some cond) (some body))]) := by
  refine hcond.bind fun c hc => hbody.bind fun ns hns => (builds_asBody hns).bind fun b hb => ?_
  refine BuildsAll.singleton (yields_allocAt fun _ => ?_)
  exact congrArg₂ (fun s t => Tree.binary () form (some s) (some t)) hc hb

theorem spelled_guarded {kind : TokenKind} {cs bs : List Token} (hkind : kind ∈ TokenKind.keywords)
    (hcs : ∀ t ∈ cs, Spelled t) (hbs : ∀ t ∈ bs, Spelled t) :
    ∀ t ∈ fixed kind :: (cs ++ bs), Spelled t :=
  List.forall_mem_cons.mpr ⟨.keyword hkind, List.forall_mem_append.mpr ⟨hcs, hbs⟩⟩

theorem printed_statement {t : Tree σ} (h : Statement IsText t) : PrintedStatement t := by
  induction h with
  | expression h => exact printedStatement_expression h
  | declaration l h =>
    obtain ⟨hspelled, decl, hphrase, hbuild⟩ := printed_declaration l h
    exact ⟨hspelled, .vars decl, .vars hphrase, hbuild⟩
  | ret l =>
    refine ⟨List.forall_mem_cons.mpr
      ⟨.keyword (by decide), List.forall_mem_singleton.mpr (.symbol (by decide))⟩,
      .ret .unknown none, ?_, ?_⟩
    · exact .ret (t := fixed .kwReturn) rfl (.nothing (s := fixed .semicolon) rfl)
    · refine Yields.bind (P := fun value => value = none) (.pure rfl) fun value hvalue => ?_
      subst hvalue
      exact BuildsAll.singleton (t := .unary l .ret none) (yields_allocAt fun _ => rfl)
  | @retValue l value h =>
    obtain ⟨hspelled, e, hphrase, hbuild⟩ := printed_expression h 0 (Nat.zero_le 11)
    refine ⟨?_, .ret .unknown (some e), ?_, ?_⟩
    · refine List.forall_mem_cons.mpr
        ⟨.keyword (by decide), List.forall_mem_append.mpr ⟨hspelled, ?_⟩⟩
      exact List.forall_mem_singleton.mpr (.symbol (by decide))
    · exact .ret (t := fixed .kwReturn) rfl (.value (s := fixed .semicolon) hphrase rfl)
    · have hsome : Yields (fun c => ∃ n : Node, c = some n ∧ n.shape = value.shape)
          (do return some (← e.build)) :=
        hbuild.bind fun n hn => .pure ⟨n, rfl, hn⟩
      refine hsome.bind fun c hc => ?_
      obtain ⟨n, rfl, hn⟩ := hc
      refine BuildsAll.singleton (t := .unary l .ret (some value)) (yields_allocAt fun _ => ?_)
      exact congrArg (fun s => Tree.unary () .ret (some s)) hn
  | block l h ih =>
    obtain ⟨hspelled, ss, hphrase, hbuild⟩ := printed_block l ih
    exact ⟨hspelled, _, hphrase, hbuild⟩
  | ifThen l l' hcond hbody ih =>
    obtain ⟨hspelled, e, hphrase, hbuild⟩ := printed_condition hcond
    obtain ⟨hspelled', ss, hphrase', hbuild'⟩ := printed_block l' ih
    refine ⟨spelled_guarded (by decide) hspelled hspelled', .ifThen .unknown e
      (.block .unknown ss), ?_, ?_⟩
    · exact .ifThen (t := fixed .kwIf) rfl hphrase hphrase'
    · exact builds_guarded l .ifThen hbuild hbuild'
  | loop l l' hcond hbody ih =>
    obtain ⟨hspelled, e, hphrase, hbuild⟩ := printed_condition hcond
    obtain ⟨hspelled', ss, hphrase', hbuild'⟩ := printed_block l' ih
    refine ⟨spelled_guarded (by decide) hspelled hspelled', .while .unknown e
      (.block .unknown ss), ?_, ?_⟩
    · exact .while (t := fixed .kwWhile) rfl hphrase hphrase'
    · exact builds_guarded l .while hbuild hbuild'
  | ifThenElse l l' l'' hcond hthen helse ih ih' =>
    obtain ⟨hspelled, e, hphrase, hbuild⟩ := printed_condition hcond
    obtain ⟨hspelled', ss, hphrase', hbuild'⟩ := printed_block l' ih
    obtain ⟨hspelled'', ss', hphrase'', hbuild''⟩ := printed_block l'' ih'
    refine ⟨?_, .ifThenElse .unknown e (.block .unknown ss) (.block .unknown ss'), ?_, ?_⟩
    · refine spelled_guarded (by decide) hspelled (List.forall_mem_append.mpr ⟨hspelled', ?_⟩)
      exact List.forall_mem_cons.mpr ⟨.keyword (by decide), hspelled''⟩
    · -- The first branch is a block, so the `else` cannot belong to a condition inside it.
      exact .ifThenElse (t := fixed .kwIf) (l := fixed .kwElse) rfl hphrase hphrase'
        rfl rfl hphrase''
    · refine hbuild.bind fun c hc => hbuild'.bind fun ns hns =>
        (builds_asBody hns).bind fun b hb => ?_
      refine hbuild''.bind fun ns' hns' => (builds_asBody hns').bind fun b' hb' => ?_
      refine BuildsAll.singleton (yields_allocAt fun stamp => ?_)
      show Tree.ternary () .ifThenElse (some c.shape) (some b.shape) (some b'.shape) = _
      rw [hc, hb, hb']
      rfl

/-! ## Functions -/

theorem printed_parameter {t : Tree σ} (h : Parameter t) :
    ReadsBack Phrase.Parameter (fun p => Builds t p.build) (paramTokens (some t)) := by
  obtain ⟨l, h⟩ := h
  obtain ⟨⟨htype, spec, hspec, hbuild⟩, hname, d, hd, hbuild'⟩ := printed_typing h
  exact ⟨List.forall_mem_append.mpr ⟨htype, hname⟩, ⟨spec.pos, spec, d⟩, .mk hspec hd,
    builds_binary hbuild hbuild'⟩

theorem printed_parameterList {p : Tree σ} {params : List (Tree σ)}
    (h : ∀ t ∈ p :: params, Parameter t) :
    ∃ ps, Phrase.ParameterList (separated (((p :: params).map some).map paramTokens)) ps ∧
      BuildsAll (p :: params) (ps.mapM Param.build) := by
  induction params generalizing p with
  | nil =>
    obtain ⟨-, q, hphrase, hbuild⟩ := printed_parameter (h p List.mem_cons_self)
    refine ⟨[q], .last hphrase, ?_⟩
    rw [List.mapM_cons]
    exact hbuild.bind fun n hn => .pure (congrArg (fun s => [s]) hn)
  | cons p' params ih =>
    obtain ⟨hp, hmore⟩ := List.forall_mem_cons.mp h
    obtain ⟨-, q, hphrase, hbuild⟩ := printed_parameter hp
    obtain ⟨ps, hphrases, hbuilds⟩ := ih hmore
    refine ⟨q :: ps, .more (c := fixed .comma) hphrase rfl hphrases, ?_⟩
    rw [List.mapM_cons]
    exact hbuild.bind fun n hn => hbuilds.bind fun ns hns => .pure (congrArg₂ _ hn hns)

/-- A list of parameters that does not begin with `void` cannot be taken for an empty one. -/
theorem headKind_parameters {p : Tree σ} {params : List (Tree σ)} (hp : Parameter p)
    (hfirst : FirstNotVoid (p :: params)) :
    Parser.headKind (separated (((p :: params).map some).map paramTokens)) ≠ .kwVoid := by
  obtain @⟨l, _, _, @⟨l', l'', tag, isConst, x, _, stars⟩⟩ := hp
  let first : Tree σ := .binary l .declaration (some (.leaf l' (.type (.known tag) isConst)))
    (some (.leaf l'' (.names [x] stars)))
  have hhead : ∀ more, Parser.headKind (separated (paramTokens (some first) :: more)) =
      if isConst then .kwConst else tag.keyword := by
    intro more
    cases more <;> cases isConst <;> rfl
  show Parser.headKind
    (separated (paramTokens (some first) :: (params.map some).map paramTokens)) ≠ .kwVoid
  rw [hhead]
  cases isConst with
  | true => nofun
  | false =>
    cases tag with
    | void => exact absurd rfl (hfirst l l' _)
    | int | char => nofun

theorem printed_parameters {params : List (Tree σ)} (h : ∀ p ∈ params, Parameter p)
    (hfirst : FirstNotVoid params) :
    ∃ ps, Phrase.Parameters (separated ((params.map some).map paramTokens) ++
      [fixed .rightParen]) ps ∧
      BuildsAll params (ps.mapM Param.build) := by
  cases params with
  | nil => exact ⟨[], .none rfl, .pure rfl⟩
  | cons p params =>
    obtain ⟨ps, hphrase, hbuilds⟩ := printed_parameterList h
    exact ⟨ps, .some hphrase (headKind_parameters (h p List.mem_cons_self) hfirst) rfl, hbuilds⟩

theorem spelled_signature {type signature : Tree σ} (h : Signature type signature) :
    (∀ u ∈ typeTokens (some type), Spelled u) ∧ ∀ u ∈ declaredTokens (some signature),
      Spelled u := by
  obtain ⟨l, l', l'', tag, isConst, hname, hparams, -⟩ := h
  refine ⟨(printed_type l tag isConst).1, List.forall_mem_cons.mpr
    ⟨.name hname, spelled_between (spelled_separated ?_) (by decide) (by decide)⟩⟩
  rw [List.map_map]
  exact List.forall_mem_map.mpr fun p hp => (printed_parameter (hparams p hp)).1

/-- What is printed for a signature is the head of a function: with a semicolon it is a prototype,
with a body a definition. -/
theorem printed_signature {type signature : Tree σ} (h : Signature type signature) :
    ∃ head : FunctionHead,
      Phrase.Member
        (typeTokens (some type) ++ (declaredTokens (some signature) ++ [fixed .semicolon]))
        (.prototype head) ∧
      (∀ bs stmts, Phrase.Statements bs stmts →
        Phrase.Member
          (typeTokens (some type) ++ (declaredTokens (some signature) ++ fixed .leftBrace :: bs))
          (.definition head ⟨.unknown, stmts⟩)) ∧
      Yields (fun ns => ns.1.shape = type.shape ∧ ns.2.shape = signature.shape) head.build := by
  obtain @⟨l, l', l'', tag, isConst, x, params, hname, hparams, hfirst⟩ := h
  obtain ⟨-, spec, hspec, hbuild⟩ := printed_type l tag isConst
  obtain ⟨ps, hphrase, hbuilds⟩ := printed_parameters hparams hfirst
  obtain ⟨a, rest, hcons⟩ := List.exists_cons_of_ne_nil hphrase.ne_nil
  have hdeclared : Phrase.Declared ([] ++ [named x]) ⟨.unknown, 0, .unknown, x⟩ := .mk nofun rfl
  have htokens : declaredTokens
      (some (.unary l' (.signature x) (some (.seq l'' .parameters (params.map some))))) =
      [named x] ++ fixed .leftParen :: a :: rest := by
    rw [← hcons]
    rfl
  rw [hcons] at hphrase
  refine ⟨⟨spec.pos, spec, ⟨.unknown, 0, .unknown, x⟩, a.pos, ps⟩, ?_, fun bs stmts hbody => ?_, ?_⟩
  · rw [htokens]
    exact .prototype (p := fixed .leftParen) hspec hdeclared rfl hphrase rfl
  · rw [htokens]
    exact .definition (p := fixed .leftParen) (b := fixed .leftBrace) hspec hdeclared rfl
      hphrase rfl hbody
  · -- The node of the declarator is allocated, but it is not part of the tree.
    refine hbuild.bind fun type htype => Yields.bind (P := fun _ => True)
      (fun _ => trivial) fun _ _ => ?_
    refine (builds_withItems l'' hbuilds).bind fun list hlist => ?_
    refine Yields.bind (P := fun n : Node => n.shape = _) (yields_allocAt fun _ => ?_) fun n hn =>
      .pure ⟨htype, hn⟩
    exact congrArg (fun s => Tree.unary () (.signature x) (some s)) hlist

/-! ## Programs -/

theorem printed_member {t : Tree σ} (h : Member IsText t) :
    ReadsBack Phrase.Member (fun e => BuildsAll [t] e.build) (memberTokens (some t)) := by
  cases h with
  | declaration l h =>
    obtain ⟨hspelled, decl, hphrase, hbuild⟩ := printed_declaration l h
    exact ⟨hspelled, .vars decl, .vars hphrase, hbuild⟩
  | prototype l h =>
    obtain ⟨htype, hdeclared⟩ := spelled_signature h
    obtain ⟨head, hphrase, -, hbuild⟩ := printed_signature h
    refine ⟨?_, .prototype head, hphrase, ?_⟩
    · refine List.forall_mem_append.mpr ⟨htype, List.forall_mem_append.mpr ⟨hdeclared, ?_⟩⟩
      exact List.forall_mem_singleton.mpr (.symbol (by decide))
    · refine hbuild.bind fun ns hns => BuildsAll.singleton (yields_allocAt fun _ => ?_)
      exact congrArg₂ (fun s t => Tree.binary () .forward (some s) (some t)) hns.1 hns.2
  | @definition l l' type signature body h hbody =>
    obtain ⟨htype, hdeclared⟩ := spelled_signature h
    obtain ⟨head, -, hphrase, hbuild⟩ := printed_signature h
    obtain ⟨hspelled, stmts, hstmts, hbuilds⟩ :=
      printed_statements fun s hs => printed_statement (hbody s hs)
    refine ⟨?_, .definition head ⟨.unknown, stmts⟩, hphrase _ _ hstmts, ?_⟩
    · exact List.forall_mem_append.mpr
        ⟨htype, List.forall_mem_append.mpr
        ⟨hdeclared, spelled_between hspelled (by decide) (by decide)⟩⟩
    · refine hbuild.bind fun ns hns => (builds_withItems l' hbuilds).bind fun block hblock => ?_
      refine BuildsAll.singleton (yields_allocAt fun _ => ?_)
      show Tree.ternary () .definition (some ns.1.shape) (some ns.2.shape) (some block.shape) = _
      rw [hns.1, hns.2, hblock]
      rfl

theorem printed_members {members : List (Tree σ)} (h : ∀ m ∈ members, Member IsText m) :
    ReadsBack Phrase.Members (fun es => BuildsAll members (External.buildAll es))
      ((members.map some).flatMap memberTokens) := by
  induction members with
  | nil => exact ⟨nofun, [], .nil, .pure rfl⟩
  | cons m members ih =>
    obtain ⟨hm, hmore⟩ := List.forall_mem_cons.mp h
    obtain ⟨hspelled, e, hphrase, hbuild⟩ := printed_member hm
    obtain ⟨hspelled', es, hphrases, hbuilds⟩ := ih hmore
    rw [List.map_cons, List.flatMap_cons]
    exact ⟨List.forall_mem_append.mpr ⟨hspelled, hspelled'⟩, e :: es, .cons hphrase hphrases,
      hbuild.append hbuilds⟩

theorem printed_program {t : Tree σ} (h : Program IsText t) :
    ReadsBack (fun ts (program : Surface.Program) => Phrase.Members ts program.externals)
      (fun program => Builds t program.build) (programTokens t) := by
  obtain ⟨l, h⟩ := h
  obtain ⟨hspelled, es, hphrases, hbuilds⟩ := printed_members h
  exact ⟨hspelled, ⟨.unknown, es⟩, hphrases, builds_withItems l hbuilds⟩

end

/-- The shape of the tree that is read does not depend on positions. -/
theorem shape_build (program : Surface.Program) (generation : UInt32) :
    (program.build.run (.empty generation)).1.shape =
      ((program.relocate nowhere).build.run (.empty 0)).1.shape := by
  obtain ⟨hroot, -⟩ := program.moves_build _ _ (Arena.relocated_empty nowhere generation 0)
  rw [hroot, Node.shape_relocate]

/-- A text with the tokens of a printed program is read back as its tree, however the tokens are
laid out. -/
theorem parse_of_tokens {σ : Type} {t : Tree σ} (h : Program IsText t) {text : List Char}
    (htext : (TokenStream.ofText text).tokens.map Token.spelling =
      (programTokens t).map Token.spelling) (generation : UInt32) (path : String) :
    ∃ file, File.parse generation path text = .ok file ∧
      file.root.map Tree.shape = some t.shape := by
  obtain ⟨-, program, hmembers, hbuild⟩ := printed_program h
  obtain ⟨program', hread, hsame⟩ := Surface.Program.ofText_of_members hmembers htext.symm
  refine ⟨_, File.parse_eq_ok_iff.mpr ⟨program', hread, rfl⟩, ?_⟩
  have hshape : (program'.build.run (.empty generation)).1.shape = t.shape := by
    rw [shape_build, ← hsame, ← shape_build program generation]
    exact hbuild _
  exact congrArg some hshape

/-- Parsing undoes printing: the text of a program is read, and its tree is the one that was
printed, but for identities and positions. So is each text with the same tokens, whatever blanks and
comments stand between them. -/
theorem parsing_undoes_printing {σ : Type} {t : Tree σ} (h : Program IsText t) (generation : UInt32)
    (path : String) :
    (∃ file, File.parse generation path (print t) = .ok file ∧
      file.root.map Tree.shape = some t.shape) ∧
      ∀ text, (TokenStream.ofText text).tokens.map Token.spelling =
        (programTokens t).map Token.spelling →
        ∃ file, File.parse generation path text = .ok file ∧
          file.root.map Tree.shape = some t.shape := by
  have hprint : (TokenStream.ofText (print t)).tokens.map Token.spelling =
      (programTokens t).map Token.spelling :=
    spelling_render (printed_program h).1
  exact ⟨parse_of_tokens h hprint generation path, fun text htext => parse_of_tokens h htext
    generation path⟩

/-- A program with an assignment, a difference and the least number inside of other expressions. -/
def nested : Tree Unit :=
  let name (x : String) : Tree Unit := .leaf () (.names [x] 0)
  let type (tag : TypeTag) : Tree Unit := .leaf () (.type (.known tag) false)
  let list (form : SeqForm) (ts : List (Tree Unit)) : Tree Unit := .seq () form (ts.map some)
  let both (form : BinaryForm) (left right : Tree Unit) : Tree Unit :=
    .binary () form (some left) (some right)
  let sub := both (.arithmetic (.known .sub))
  let text : Tree Unit := .leaf () (.strConst (Text.Utf8.encode "\n\x22"))
  let least : Tree Unit := .leaf () (.intConst (-2147483648))
  let difference := sub (sub (name "a") least) (sub least (both .assign (name "a") least))
  let call : Tree Unit :=
    .unary () (.call "g") (some (list .parameters [text, both .assign (name "a") difference]))
  let signature : Tree Unit :=
    .unary () (.signature "f") (some (list .parameters [both .declaration (type .int) (name "a")]))
  let choice : Tree Unit := .ternary () .ifThenElse (some (name "a")) (some (list .block [call]))
    (some (list .block [.unary () .ret (some difference)]))
  list .program [both .forward (type .char) (.leaf () (.names ["p"] 2)),
    .ternary () .definition (some (type .int)) (some signature) (some (list .block [choice]))]

theorem nested_read_back :
    Program IsText nested ∧
      print nested = ("char * * p ; int f ( int a ) \x7b if ( a ) " ++
        "\x7b g ( \x22\\n\\\x22\x22 , a = a - - 2147483648 - ( - 2147483648 - " ++
        "( a = - 2147483648 ) ) ) ; \x7d else \x7b return a - - 2147483648 - ( - 2147483648 - " ++
        "( a = - 2147483648 ) ) ; \x7d \x7d ").toList ∧
      ∃ file, File.parse 0 "a.c" (print nested) = .ok file ∧
        file.root.map Tree.shape = some nested.shape := by
  have hname (x : String) (hx : IsIdentifier x) : Expression IsText (.leaf () (.names [x] 0)) :=
    .name () hx
  have ha := hname "a" (by decide)
  have hleast : Expression IsText (.leaf () (.intConst (-2147483648))) := .int () _
  have hinner := Expression.operation () (.arith .sub) hleast (.assign () ha hleast)
  have hdifference :=
    Expression.operation () (.arith .sub) (.operation () (.arith .sub) ha hleast) hinner
  have hprogram : Program IsText nested := by
    refine .mk ()
      (List.forall_mem_cons.mpr ⟨.declaration () (.mk () () .char false (by decide) 2), ?_⟩)
    refine List.forall_mem_singleton.mpr
      (.definition () () (.mk () () () .int false (by decide) ?_ ?_) ?_)
    · exact List.forall_mem_singleton.mpr (.mk () (.mk () () .int false (by decide) 0))
    · intro l l' name hhead
      cases hhead
    · refine List.forall_mem_singleton.mpr (.ifThenElse () () () ha ?_ ?_)
      · refine List.forall_mem_singleton.mpr (.expression (.call () () (by decide) ?_))
        exact List.forall_mem_cons.mpr
          ⟨.str () ⟨_, rfl⟩, List.forall_mem_singleton.mpr (.assign () ha hdifference)⟩
      · exact List.forall_mem_singleton.mpr (.retValue () hdifference)
  exact ⟨hprogram, by decide +kernel, (parsing_undoes_printing hprogram 0 "a.c").1⟩

/-! ## Bytes that are no text -/

/-- No text consists of this byte. -/
theorem not_isText_stray : ¬IsText [0xFF] := by
  rintro ⟨text, htext⟩
  have hbytes : text.toByteArray = ⟨#[0xFF]⟩ := ByteArray.ext (Array.toList_inj.mp htext.symm)
  have hvalid := ByteArray.validateUTF8_eq_true_iff.mpr (hbytes ▸ text.isValidUTF8)
  revert hvalid
  decide

/-- The string constants of a tree that was read hold the bytes of texts. -/
theorem isText_of_isStatement {stamp : Stamp} {contents : List UInt8}
    (h : Node.IsStatement (.leaf stamp (.strConst contents))) : IsText contents := by
  obtain h | _ := h
  cases h with
  | str text => exact ⟨text, rfl⟩

/-- The only member of a list that is like this one. -/
theorem like_of_allItems {P : Node → Prop} {items : List (Option Node)} {m : Node}
    (hitems : Node.AllItems P items)
    (hlikes : List.Forall₂ (Option.Rel Node.SameShape) items [some m]) :
    ∃ n, Node.SameShape n m ∧ P n := by
  cases hlikes with
  | cons hlike _ =>
    obtain ⟨n, rfl, hn⟩ := hitems.head
    cases hlike with
    | some hlike => exact ⟨n, hlike, hn⟩

/-- A function with a string constant that holds one byte which belongs to no character. -/
def strayByte {σ : Type} (l : σ) : Tree σ :=
  .seq l .program [some (.ternary l .definition (some (.leaf l (.type (.known .int) false)))
    (some (.unary l (.signature "f") (some (.seq l .parameters []))))
    (some (.seq l .block [some (.leaf l (.strConst [0xFF]))])))]

/-- No text at all is read as this tree, so none that it could be printed as. -/
theorem stray_byte_not_read_back :
    Program (fun _ => True) (strayByte ()) ∧
      ¬∃ generation path text file, File.parse generation path text = .ok file ∧
        file.root.map Tree.shape = some (strayByte ()).shape := by
  constructor
  · refine @Program.mk _ _ () [_] (List.forall_mem_singleton.mpr ?_)
    refine @Member.definition _ _ () () _ _ [_] ?_ (List.forall_mem_singleton.mpr ?_)
    · exact @Signature.mk _ () () () .int false _ [] (by decide) nofun nofun
    · exact .expression (.str () trivial)
  · rintro ⟨generation, path, text, file, hparse, hshape⟩
    obtain ⟨stamp, items, hroot, hitems⟩ := File.members_of_parse hparse
    have hlike : Node.SameShape (.seq stamp .program items) (strayByte stamp) := by
      rw [hroot] at hshape
      exact Node.sameShape_iff.mp (Option.some.inj hshape)
    -- the member is a definition, and its body is the constant
    cases hlike with
    | seq _ hlikes =>
      obtain ⟨n, hn, hmember⟩ := like_of_allItems hitems hlikes
      cases hn with
      | ternary _ _ _ hbody =>
        cases hmember with
        | definition _ hstatements =>
          obtain ⟨_, heq, hbody⟩ := eq_some_of_rel hbody rfl
          cases heq
          cases hbody with
          | seq _ hbody =>
            obtain ⟨m, hm, hstatement⟩ := like_of_allItems hstatements hbody
            cases hm with
            | leaf => exact not_isText_stray (isText_of_isStatement hstatement)

end CSubset.Printing
