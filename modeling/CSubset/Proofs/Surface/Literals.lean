import CSubset.Proofs.Surface.Operands

/-!
# Literals in programs

The integers and strings of a program are operands of the expressions in it: in initializers,
conditions, returned values and statements. Each may be replaced by any other operand, but for an
integer directly behind a minus sign, and the tree of the program has that of the operand in one
place (`Phrase.Members.find`).
-/

namespace CSubset.Surface

open Phrase
open CSubset.Surface.Parser (headKind)

section Statements

variable {η : Type} {H : η → Tree Pos} {t s c : Token} {bs ns ts : List Token} {body : Stmt}
  {next : Declarator}

/-! ## Statements with a gap in an expression -/

/-- The first value has a gap. -/
def InitHolds (H : η → Tree Pos) (F : η → Option Initializer) : Prop :=
  ∃ pos G, ExprHolds H G ∧ ∀ z, F z = some ⟨pos, G z⟩

/-- One of the variables has a gap, of whatever type they are. -/
def VarsHold (H : η → Tree Pos) (F : η → InitDeclarator × List InitDeclarator) : Prop :=
  ∀ pos type, HoldsOne H fun z => ((F z).1 :: (F z).2).flatMap (InitDeclarator.outlines pos type)

/-- One of the variables that are declared has a gap. -/
structure DeclHolds (H : η → Tree Pos) (F : η → VarDecl) : Prop where
  pos : ∃ pos, ∀ z, (F z).pos = pos
  nodes : HoldsOne H fun z => (F z).outlines

/-- The value that is returned has a gap. -/
def ReturnHolds (H : η → Tree Pos) (F : η → Option Expr) : Prop :=
  ∃ G, ExprHolds H G ∧ ∀ z, F z = some (G z)

theorem carries_initialized (ht : t.kind = .assign) :
    Carries Assignment (ExprHolds H) Initialized (InitHolds H) [t] []
      (fun e => some ⟨t.pos, e⟩) where
  phrase _ _ h := by simpa using Initialized.value ht h
  holds F hF := ⟨t.pos, F, hF, fun _ => rfl⟩

theorem InitHolds.outlines {F : η → Option Initializer} (h : InitHolds H F) (pos : Pos)
    (type : TypeSpec) (d : Declarator) :
    HoldsOne H fun z => InitDeclarator.outlines pos type ⟨d, F z⟩ := by
  obtain ⟨place, G, hG, hF⟩ := h
  simp only [InitDeclarator.outlines, hF, Option.toList_some, List.map_cons, List.map_nil]
  exact (hG.frame (.right place .assign (some d.outline))).one.behind
    [.binary pos .forward (some type.outline) (some d.outline)]

theorem carries_lastVariable (d : Declarator) (hs : s.kind = .semicolon) :
    Carries Initialized (InitHolds H) (Variables d) (VarsHold H) [] [s]
      (fun init => (⟨d, init⟩, [])) where
  phrase _ _ h := .last h hs
  holds F hF pos type := by
    simp only [List.flatMap_singleton]
    exact hF.outlines pos type d

theorem carries_variable {ts' : List Token} {second : InitDeclarator} {others : List InitDeclarator}
    (d : Declarator) (hc : c.kind = .comma) (hnext : Declared ns next)
    (hmore : Variables next ts' (second, others)) :
    Carries Initialized (InitHolds H) (Variables d) (VarsHold H) [] (c :: (ns ++ ts'))
      (fun init => (⟨d, init⟩, second :: others)) where
  phrase _ _ h := .more h hc hnext hmore
  holds _ hF pos type :=
    (hF.outlines pos type d).before ((second :: others).flatMap (InitDeclarator.outlines pos type))

theorem carries_laterVariables {init : Option Initializer} (d : Declarator)
    (hinit : Initialized ts init) (hc : c.kind = .comma) (hnext : Declared ns next) :
    Carries (Variables next) (VarsHold H) (Variables d) (VarsHold H) (ts ++ c :: ns) []
      (fun vars => (⟨d, init⟩, vars.1 :: vars.2)) where
  phrase _ _ h := by simpa using Variables.more hinit hc hnext h
  holds F hF pos type := (hF pos type).behind (InitDeclarator.outlines pos type ⟨d, init⟩)

theorem carries_declaration {type : TypeSpec} {d : Declarator} (htype : TypeName ts type)
    (hname : Declared ns d) :
    Carries (Variables d) (VarsHold H) Declaration (DeclHolds H) (ts ++ ns) []
      (fun vars => ⟨type.pos, type, vars.1, vars.2⟩) where
  phrase _ _ h := by simpa using Declaration.mk htype hname h
  holds F hF := ⟨⟨type.pos, fun _ => rfl⟩, hF type.pos type⟩

theorem carries_vars :
    Carries Declaration (DeclHolds H) (Ending false) (StmtHolds H) [] [] Stmt.vars where
  phrase _ _ h := by
    rw [List.nil_append, List.append_nil]
    exact ⟨.vars h, rfl⟩
  holds F hF := by
    obtain ⟨⟨pos, hpos⟩, hnodes⟩ := hF
    have hbody : Holds H fun z => .seq (F z).pos .block ((F z).outlines.map some) := by
      simp only [hpos]
      exact hnodes.seq pos .block
    exact ⟨hnodes, hbody⟩

theorem carries_condition {p q : Token} (hp : p.kind = .leftParen) (hq : q.kind = .rightParen) :
    Carries Assignment (ExprHolds H) Condition (ExprHolds H) [p] [q] id where
  phrase _ _ h := .mk hp h hq
  holds _ h := h

theorem carries_returned (hs : s.kind = .semicolon) :
    Carries Assignment (ExprHolds H) Returned (ReturnHolds H) [] [s] some where
  phrase _ _ h := .value h hs
  holds F hF := ⟨F, hF, fun _ => rfl⟩

theorem carries_ret (ht : t.kind = .kwReturn) :
    Carries Returned (ReturnHolds H) (Ending false) (StmtHolds H) [t] [] (Stmt.ret t.pos) where
  phrase _ _ h := by
    rw [List.append_nil]
    exact ⟨.ret ht h, rfl⟩
  holds F hF := by
    obtain ⟨G, hG, hF⟩ := hF
    obtain rfl : F = fun z => some (G z) := funext hF
    have hnodes := (hG.frame (.child t.pos .ret)).one
    exact ⟨hnodes, hnodes.seq t.pos .block⟩

theorem carries_ifCondition (ht : t.kind = .kwIf) (h : Statement bs body) :
    Carries Condition (ExprHolds H) (Ending true) (StmtHolds H) [t] bs
      (Stmt.ifThen t.pos · body) where
  phrase _ _ hcond := ⟨by simpa using Statement.ifThen ht hcond h, rfl⟩
  holds F hF := by
    have hnodes := (hF.frame (.left t.pos .ifThen (some (body.bodyOutline body.outlines)))).one
    exact ⟨hnodes, hnodes.seq t.pos .block⟩

theorem carries_ifElseCondition {l : Token} {bs' : List Token} {thenBody elseBody : Stmt}
    (ht : t.kind = .kwIf) (hthen : Statement bs thenBody) (hclosed : thenBody.endsOpen = false)
    (hl : l.kind = .kwElse) (helse : Statement bs' elseBody) :
    Carries Condition (ExprHolds H) (Ending elseBody.endsOpen) (StmtHolds H) [t] (bs ++ l :: bs')
      (Stmt.ifThenElse t.pos · thenBody elseBody) where
  phrase _ _ hcond := ⟨.ifThenElse ht hcond hthen hclosed hl helse, rfl⟩
  holds F hF := by
    have hnodes :=
      (hF.frame (.first t.pos .ifThenElse (some (thenBody.bodyOutline thenBody.outlines))
        (some (elseBody.bodyOutline elseBody.outlines)))).one
    exact ⟨hnodes, hnodes.seq t.pos .block⟩

theorem carries_whileCondition (ht : t.kind = .kwWhile) (h : Statement bs body) :
    Carries Condition (ExprHolds H) (Ending body.endsOpen) (StmtHolds H) [t] bs
      (Stmt.while t.pos · body) where
  phrase _ _ hcond := ⟨by simpa using Statement.while ht hcond h, rfl⟩
  holds F hF := by
    have hnodes := (hF.frame (.left t.pos .while (some (body.bodyOutline body.outlines)))).one
    exact ⟨hnodes, hnodes.seq t.pos .block⟩

/-- A statement that is an expression stands where its first token does. -/
theorem carries_expr (hs : s.kind = .semicolon) (pos : Pos) :
    Carries (Pinned pos Assignment) (ExprHolds H) (Ending false) (StmtHolds H) [] [s]
      (Stmt.expr pos) where
  phrase ts _ h := by
    obtain ⟨h, hpos⟩ := h
    rcases ts with _ | ⟨t, ts⟩
    · cases hpos
    · obtain rfl : t.pos = pos := Option.some.inj hpos
      exact ⟨.expr h hs, rfl⟩
  holds F hF := ⟨hF.one, hF.one.seq pos .block⟩

theorem carries_globalVars :
    Carries Declaration (DeclHolds H) Member (MemberHolds H) [] [] External.vars where
  phrase _ _ h := by simpa using Member.vars h
  holds _ hF := hF.nodes

end Statements

/-! ## Finding a literal -/

theorem isLiteral_of_inHead (kind : TokenKind) (h : inHead kind = true) :
    isLiteral kind = false := by
  revert h
  cases kind <;> decide

/-- The head of a declaration has no literals. -/
theorem no_literal {ts : List Token} (h : ∀ t ∈ ts, inHead t.kind = true) :
    ∀ t ∈ ts, isLiteral t.kind = false :=
  fun t ht => isLiteral_of_inHead _ (h t ht)

namespace Phrase

variable {after before ts : List Token} {u : Token}

section Find

variable (pos : Pos) (hu : isLiteral u.kind = true)

include hu

theorem Initialized.find {init : Option Initializer} (h : Initialized ts init)
    (heq : before ++ u :: after = ts) :
    Found pos Initialized (InitHolds Expr.outline) before u after := by
  cases h with
  | absent => simp at heq
  | @value t _ _ ht h =>
    obtain ⟨mid, rfl, hmid⟩ := split_cons heq hu (by rw [ht]; rfl)
    exact (h.find pos hu hmid.symm).carry_nil (carries_initialized ht)

theorem Variables.find {d : Declarator} {vars : InitDeclarator × List InitDeclarator}
    (h : Variables d ts vars) (heq : before ++ u :: after = ts) :
    Found pos (Variables d) (VarsHold Expr.outline) before u after := by
  induction h generalizing before with
  | last hinit hs =>
    obtain ⟨mid, hts, rfl⟩ := split_concat heq hu (by rw [hs]; rfl)
    exact (hinit.find pos hu hts.symm).carry (carries_lastVariable _ hs)
  | @more d _ _ _ _ _ _ _ _ hinit hc hnext hmore ih =>
    rcases split_between heq hu (by rw [hc]; rfl) with ⟨mid, hts, rfl⟩ | ⟨mid, rfl, hmid⟩
    · exact (hinit.find pos hu hts.symm).carry (carries_variable d hc hnext hmore)
    · obtain ⟨mid, rfl, hts'⟩ := split_behind _ hmid.symm hu (no_literal hnext.headKinds)
      have hfound := (ih hts'.symm).carry_nil (carries_laterVariables d hinit hc hnext)
      simpa using hfound

theorem Declaration.find {decl : VarDecl} (h : Declaration ts decl)
    (heq : before ++ u :: after = ts) :
    Found pos Declaration (DeclHolds Expr.outline) before u after := by
  cases h with
  | @mk ts ns _ _ _ _ _ htype hname hvars =>
    rw [← List.append_assoc] at heq
    obtain ⟨mid, rfl, hvs⟩ := split_behind (ts ++ ns) heq hu
      (no_literal (List.forall_mem_append.mpr ⟨htype.headKinds, hname.headKinds⟩))
    exact (hvars.find pos hu hvs.symm).carry_nil (carries_declaration htype hname)

theorem Condition.find {e : Expr} (h : Condition ts e) (heq : before ++ u :: after = ts) :
    Found pos Condition (ExprHolds Expr.outline) before u after := by
  cases h with
  | @mk p _ _ _ hp h hq =>
    obtain ⟨mid, rfl, hmid⟩ := split_cons heq hu (by rw [hp]; rfl)
    obtain ⟨inner, hts, rfl⟩ := split_concat hmid.symm hu (by rw [hq]; rfl)
    exact (h.find pos hu hts.symm).carry (carries_condition hp hq)

theorem Returned.find {value : Option Expr} (h : Returned ts value)
    (heq : before ++ u :: after = ts) :
    Found pos Returned (ReturnHolds Expr.outline) before u after := by
  cases h with
  | nothing hs => exact (not_singleton heq hu (by rw [hs]; rfl)).elim
  | value h hs =>
    obtain ⟨mid, hts, rfl⟩ := split_concat heq hu (by rw [hs]; rfl)
    exact (h.find pos hu hts.symm).carry (carries_returned hs)

end Find

mutual

/-- The literal lies in an expression of the statement, or in a statement inside it. -/
theorem Statement.find {ts before after : List Token} {s : Stmt} {u : Token} (pos : Pos)
    (hu : isLiteral u.kind = true) :
    Statement ts s → before ++ u :: after = ts →
      Found pos (Ending s.endsOpen) (StmtHolds Expr.outline) before u after
  | .ret (t := t) ht h, heq => by
    obtain ⟨mid, rfl, hmid⟩ := split_cons heq hu (by rw [ht]; rfl)
    exact (h.find pos hu hmid.symm).carry_nil (carries_ret ht)
  | .ifThen (t := t) ht hcond hbody, heq => by
    obtain ⟨mid, rfl, hmid⟩ := split_cons heq hu (by rw [ht]; rfl)
    rcases split_append hmid.symm with ⟨inner, hcs, rfl⟩ | ⟨inner, rfl, hbs⟩
    · exact (hcond.find pos hu hcs.symm).carry (carries_ifCondition ht hbody)
    · exact (hbody.find pos hu hbs.symm).carry_nil (carries_ifThen ht hcond)
  | .ifThenElse (t := t) ht hcond hthen hclosed hl helse, heq => by
    obtain ⟨mid, rfl, hmid⟩ := split_cons heq hu (by rw [ht]; rfl)
    rw [Stmt.endsOpen]
    rcases split_append hmid.symm with ⟨inner, hcs, rfl⟩ | ⟨inner, rfl, hbodies⟩
    · exact (hcond.find pos hu hcs.symm).carry (carries_ifElseCondition ht hthen hclosed hl helse)
    · rcases split_between hbodies.symm hu (by rw [hl]; rfl) with ⟨mid, hbs, rfl⟩ | ⟨mid, rfl, hbs'⟩
      · have hfound := hthen.find pos hu hbs.symm
        rw [hclosed] at hfound
        exact hfound.carry (carries_then ht hcond hl helse)
      · have hfound :=
          (helse.find pos hu hbs'.symm).carry_nil (carries_else ht hcond hthen hclosed hl)
        simpa using hfound
  | .while (t := t) ht hcond hbody, heq => by
    rw [Stmt.endsOpen]
    obtain ⟨mid, rfl, hmid⟩ := split_cons heq hu (by rw [ht]; rfl)
    rcases split_append hmid.symm with ⟨inner, hcs, rfl⟩ | ⟨inner, rfl, hbs⟩
    · exact (hcond.find pos hu hcs.symm).carry (carries_whileCondition ht hbody)
    · exact (hbody.find pos hu hbs.symm).carry_nil (carries_while ht hcond)
  | .block (t := t) ht h, heq => by
    obtain ⟨mid, rfl, hmid⟩ := split_cons heq hu (by rw [ht]; rfl)
    exact (h.find pos hu hmid.symm).carry_nil (carries_block ht)
  | .empty ht, heq => (not_singleton heq hu (by rw [ht]; rfl)).elim
  | .vars h, heq => (h.find pos hu heq).carry_nil carries_vars
  | .expr (t := t) h hs, heq => by
    rw [← List.cons_append] at heq
    obtain ⟨mid, hts, rfl⟩ := split_concat heq hu (by rw [hs]; rfl)
    exact (h.find pos hu hts.symm).carry_pinned (carries_expr hs)

theorem Statements.find {ts before after : List Token} {ss : List Stmt} {u : Token} (pos : Pos)
    (hu : isLiteral u.kind = true) :
    Statements ts ss → before ++ u :: after = ts →
      Found pos Statements (StmtsHold Expr.outline) before u after
  | .nil hq, heq => (not_singleton heq hu (by rw [hq]; rfl)).elim
  | .cons h hmore, heq => by
    rcases split_append heq with ⟨mid, hts, rfl⟩ | ⟨mid, rfl, hts'⟩
    · exact (h.find pos hu hts.symm).carry (carries_first hmore)
    · exact (hmore.find pos hu hts'.symm).carry_nil (carries_later h)

end

theorem Member.find {e : External} (h : Member ts e) (pos : Pos)
    (hu : isLiteral u.kind = true) (heq : before ++ u :: after = ts) :
    Found pos Member (MemberHolds Expr.outline) before u after := by
  cases h with
  | @prototype ts ns ps p a s type d params htype hname hp hparams hs =>
    have heq : before ++ u :: after = (ts ++ (ns ++ p :: a :: ps)) ++ [s] := by simp [heq]
    refine (not_among heq hu
      (List.forall_mem_append.mpr ⟨?_, List.forall_mem_singleton.mpr (by rw [hs]; rfl)⟩)).elim
    exact function_kinds isLiteral_of_inHead rfl htype hname hp hparams
  | @definition ts ns ps bs p a b type d params stmts htype hname hp hparams hb hbody =>
    have heq : before ++ u :: after = (ts ++ (ns ++ p :: a :: ps)) ++ b :: bs := by simp [heq]
    rcases split_between heq hu (by rw [hb]; rfl) with ⟨mid, hhead, -⟩ | ⟨mid, rfl, hbs⟩
    · exact (not_among hhead.symm hu
        (function_kinds isLiteral_of_inHead rfl htype hname hp hparams)).elim
    · have hfound :=
        (hbody.find pos hu hbs.symm).carry_nil (carries_definition htype hname hp hparams hb)
      simpa using hfound
  | vars h => exact (h.find pos hu heq).carry_nil carries_globalVars

/-- An integer or a string in a program is an operand. -/
theorem Members.find {es : List External} (h : Members ts es) (pos : Pos)
    (hu : isLiteral u.kind = true) (heq : before ++ u :: after = ts) :
    Found pos Members (MembersHold Expr.outline) before u after := by
  induction h generalizing before with
  | nil => simp at heq
  | cons h hmore ih =>
    rcases split_append heq with ⟨mid, hts, rfl⟩ | ⟨mid, rfl, hts'⟩
    · exact (h.find pos hu hts.symm).carry (carries_firstMember hmore)
    · exact (ih hts'.symm).carry_nil (carries_laterMembers h)

end Phrase

end CSubset.Surface
