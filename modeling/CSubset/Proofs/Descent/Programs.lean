import CSubset.Proofs.Descent.Routines
import CSubset.Proofs.Token.Partition

/-!
# Parsing comes to an end

Each routine of the parser keeps to the contract: one lemma for each (`Routine.Kept`), all in
`covers_plan`. What is true of covered routines is then true of parsing (`parsing_terminates`).
-/

namespace CSubset.Descent

open Surface Contract
open Surface.Parser (headKind integerValue? linksAt Heads)

namespace Routine

/-- Whatever the tokens, the plan of the routine follows the contract and answers what the parser
does. -/
def Kept (r : Routine) : Prop := ∀ ts, contract.Follows r (r.answer ts) 0 0 r.plan ts

/-! ## Declarations

Each proof goes through the plan and the routine together: `step` for a call that has to read
something, `expect` for a token that has to be there, `done` where both return. -/

theorem kept_program : Kept .program := fun ts => by
  rw [answer, Parser.externals]
  refine .look ?_
  cases ts with
  | nil => exact .done rfl rfl
  | cons t rest =>
    refine .step rfl rfl fun e _ _ => ?_
    exact .call rfl rfl fun es => .done rfl rfl

/-- The token behind the declarator tells a function from variables. -/
theorem kept_external : Kept .external := fun ts => by
  refine .step rfl rfl fun type _ _ => ?_
  refine .step rfl rfl fun d _ _ => ?_
  refine .ite (fun _ => ?_) ?_
  · refine .expect rfl fun _ _ _ => ?_
    exact .step rfl rfl fun e _ _ => .done rfl rfl
  · exact .step rfl rfl fun vs _ _ => .done rfl rfl

/-- A type has its qualifier in front of its name or behind it. -/
theorem kept_type : Kept .type := fun ts => by
  rw [answer, Parser.typeSpec.eq_def]
  cases ts with
  | nil => exact .stop rfl rfl
  | cons start rest =>
    refine .token (.accept (by decide) fun leading r _ hleading => ?_)
    dsimp only
    rw [hleading]
    refine .kind ?_
    cases r with
    | nil => cases leading <;> exact .stop rfl rfl
    | cons t r =>
      dsimp only [headKind]
      cases t.kind.typeTag? with
      | none => cases leading <;> exact .stop rfl rfl
      | some tag =>
        refine .skip (.accept (by decide) fun trailing _ _ htrailing => ?_)
        dsimp only
        rw [htrailing]
        cases leading <;> cases trailing <;> exact .done rfl rfl

/-- Each star is a pass of a loop. -/
theorem kept_declarator (start : Option Pos) (stars : Nat) : Kept (.declarator start stars) :=
  fun ts => by
  rw [answer, Parser.declaratorFrom.eq_def]
  cases ts with
  | nil => exact .stop rfl rfl
  | cons t rest =>
    refine .token ?_
    dsimp only
    split
    · exact .skip (.step rfl rfl fun d _ _ => .done rfl rfl)
    · refine .look ?_
      show contract.Follows _ _ _ _ (Plan.bind (if t.kind = .identifier then _ else _) _) _
      split
      · exact .advance (.done rfl rfl)
      · exact .stop rfl rfl

theorem kept_initializer : Kept .initializer := fun ts => by
  rw [answer, Parser.initializer.eq_def]
  cases ts with
  | nil => exact .done rfl rfl
  | cons t rest =>
    refine .token ?_
    dsimp only
    split
    · exact .skip (.step rfl rfl fun e _ _ => .done rfl rfl)
    · exact .done rfl rfl

/-- Each variable after the first is a pass of a loop. -/
theorem kept_vars (d : Declarator) : Kept (.vars d) := fun ts => by
  rw [answer, Parser.variablesFrom]
  refine .call rfl rfl fun init => ?_
  obtain ⟨init, r, hr⟩ := init
  refine .ite (fun _ => ?_) (.expect rfl fun _ _ _ => .done rfl rfl)
  refine .expect rfl fun _ _ _ => ?_
  refine .step rfl rfl fun next _ _ => ?_
  exact .step rfl rfl fun more _ _ => .done rfl rfl

theorem kept_varDecl : Kept .varDecl := fun ts => by
  refine .step rfl rfl fun type _ _ => ?_
  refine .step rfl rfl fun d _ _ => ?_
  exact .step rfl rfl fun vs _ _ => .done rfl rfl

/-- At the end of the text the parameters are missing, which is an error at once. -/
theorem kept_function (result : TypeSpec) (d : Declarator) : Kept (.function result d) :=
  fun ts => by
  refine .look ?_
  cases ts with
  | nil =>
    refine .error ?_ rfl
    show ofStep <$> Parser.params [] = _
    rw [Parser.params, Parser.paramsFrom]
    rfl
  | cons start rest =>
    refine .step rfl rfl fun ps _ _ => ?_
    refine .ite (fun _ => .expect rfl fun _ _ _ => .done rfl rfl) ?_
    exact .step rfl rfl fun b _ _ => .done rfl rfl

/-- No parameters, `void` alone, or a list of them. -/
theorem kept_params : Kept .params := fun ts => by
  have hlist : contract.Follows .params
      (ofStep <$> (Parser.paramsFrom ts >>= fun ps => Parser.expect .rightParen ps.rest >>= fun p =>
      .ok ⟨ps.value, p.rest, p.shorter.trans ps.shorter⟩)) 0 1
      (.ask .paramList >>= fun ps => .expect .rightParen >>= fun _ => pure ps) ts := by
    refine .step rfl rfl fun ps _ _ => ?_
    exact .expect rfl fun _ _ _ => .done rfl rfl
  rw [answer, Parser.params]
  refine .kind ?_
  cases headKind ts with
  | rightParen => exact .expect rfl fun _ _ _ => .done rfl rfl
  | kwVoid =>
    refine .expect rfl fun _ _ _ => ?_
    exact .ite (fun _ => .expect rfl fun _ _ _ => .done rfl rfl) (.stop rfl rfl)
  | _ => exact hlist

theorem kept_param : Kept .param := fun ts => by
  refine .step rfl rfl fun type _ _ => ?_
  exact .step rfl rfl fun d _ _ => .done rfl rfl

theorem kept_paramList : Kept .paramList := fun ts => by
  rw [answer, Parser.paramsFrom]
  refine .step rfl rfl fun p _ _ => ?_
  refine .ite (fun _ => ?_) (.done rfl rfl)
  refine .expect rfl fun _ _ _ => ?_
  exact .step rfl rfl fun ps _ _ => .done rfl rfl

/-! ## Statements

A keyword is skipped before the parts of its statement are read, so these may use what the keyword
has left of the budget. -/

theorem kept_block : Kept .block := fun ts => by
  refine .expect rfl fun _ _ _ => ?_
  exact .step rfl rfl fun ss _ _ => .done rfl rfl

/-- The block ends at its brace, or there is another statement. -/
theorem kept_statements : Kept .statements := fun ts => by
  rw [answer, Parser.statementsFrom]
  refine .kind ?_
  split
  · exact .expect rfl fun _ _ _ => .done rfl rfl
  · refine .step rfl rfl fun s _ _ => ?_
    exact .step rfl rfl fun ss _ _ => .done rfl rfl

/-- At the end of the text there is no expression. -/
theorem assignment_nil : Parser.assignment [] = .error ⟨.unexpected, []⟩ := by
  rw [Parser.assignment, Parser.chain, Parser.unary]
  rfl

/-- The first token says which statement it is. -/
theorem kept_statement : Kept .statement := fun ts => by
  rw [answer, Parser.statement.eq_def]
  cases ts with
  | nil => exact .look (.error (congrArg (ofStep <$> ·) assignment_nil) rfl)
  | cons t rest =>
    -- a statement without a keyword is a declaration if a type begins here, and an expression
    -- otherwise
    have hother (kind : TokenKind) : contract.Follows .statement
        (ofStep <$> if kind.startsType then
          Parser.varDecl (t :: rest) >>= fun d => .ok ⟨.vars d.value, d.rest, d.shorter⟩
        else Parser.assignment (t :: rest) >>= fun e => Parser.expect .semicolon e.rest >>= fun s =>
          .ok ⟨.expr t.pos e.value, s.rest, s.shorter.trans e.shorter⟩) 0 1
        (if kind.startsType then .ask .varDecl >>= fun d => pure (.vars d)
        else .ask .assignment >>= fun e => .expect .semicolon >>= fun _ => pure (.expr t.pos e))
            (t :: rest) := by
      split
      · exact .step rfl rfl fun d _ _ => .done rfl rfl
      · refine .step rfl rfl fun e _ _ => ?_
        exact .expect rfl fun _ _ _ => .done rfl rfl
    refine .token ?_
    dsimp only
    cases t.kind with
    | kwReturn => exact .skip (.step rfl rfl fun value _ _ => .done rfl rfl)
    | kwIf =>
      refine .skip (.step rfl rfl fun cond _ _ => ?_)
      refine .step rfl rfl fun body _ _ => ?_
      refine .ite (fun _ => .expect rfl fun _ _ _ => ?_) (.done rfl rfl)
      exact .step rfl rfl fun body' _ _ => .done rfl rfl
    | kwWhile =>
      refine .skip (.step rfl rfl fun cond _ _ => ?_)
      exact .step rfl rfl fun body _ _ => .done rfl rfl
    | leftBrace => exact .skip (.step rfl rfl fun ss _ _ => .done rfl rfl)
    | semicolon => exact .skip (.done rfl rfl)
    | _ => exact hother _

theorem kept_returnValue : Kept .returnValue := fun ts => by
  refine .ite (fun _ => .expect rfl fun _ _ _ => .done rfl rfl) ?_
  refine .step rfl rfl fun e _ _ => ?_
  exact .expect rfl fun _ _ _ => .done rfl rfl

/-! ## Expressions

The levels of precedence are calls at the same token, each one rank below the last. The prices of
the levels are compared by `omega`. -/

theorem kept_condition : Kept .condition := fun ts => by
  refine .expect rfl fun _ _ _ => ?_
  refine .step rfl rfl fun e _ _ => ?_
  exact .expect rfl fun _ _ _ => .done rfl rfl

theorem kept_assignment : Kept .assignment := fun ts => by
  rw [answer, Parser.assignment, Parser.chain_eq, bind_assoc]
  refine .step rfl rfl fun c _ _ => ?_
  refine .ite (fun _ => .expect rfl fun _ _ _ => ?_) (.done rfl rfl)
  exact .step rfl rfl fun e _ _ => .done rfl rfl

/-- Operators of one level stand between operands of the next; below the last level there are unary
operators. -/
theorem kept_binary (level : Fin 11) : Kept (.binary level) := fun ts => by
  rw [answer, plan]
  split
  next h =>
    rw [Parser.chainOver_eq]
    refine .step rfl (by simp [allows, price]; omega) fun c _ _ => ?_
    refine .call rfl (by simp [allows, price]; omega) fun more => ?_
    obtain ⟨more, r₁, hr₁⟩ := more
    exact .done rfl (by simp [allowsReturn, allows, price]; omega)
  next h =>
    have hlevel : level.val = 10 := by omega
    rw [hlevel, Parser.chainOver_ten]
    refine .step rfl (by simp [allows, price, hlevel]) fun e _ _ => ?_
    exact .done rfl (by simp [allowsReturn, allows, price, hlevel])

/-- Each operator of the level is a pass of a loop, and a token that is no such operator ends it. -/
theorem kept_operands (level : Fin 10) : Kept (.operands level) := fun ts => by
  have hnone (h : ¬ Heads level ts) :
      contract.Follows (.operands level) (ofTail <$> linksAt level ts) 0 1 (.done []) ts := by
    rw [linksAt, if_neg h]
    exact .done rfl rfl
  cases ts with
  | nil => exact hnone (by simp [Heads, headKind, TokenKind.operator?])
  | cons t rest =>
    refine .token ?_
    split
    next hop => exact hnone (by simp [Heads, headKind, hop])
    next op hop =>
      split
      next heq =>
        rw [answer, Parser.linksAt_of_head hop heq]
        refine .skip (.step rfl (by simp [allows, price]; omega) fun c _ _ => ?_)
        refine .call rfl (by simp [allows, price]; omega) fun more => ?_
        obtain ⟨more, r₁, hr₁⟩ := more
        exact .done rfl (by simp [allowsReturn, allows, price]; omega)
      next hne => exact hnone (by simp [Heads, headKind, hop, hne])

/-- A minus sign in front of a number is read with it. -/
theorem kept_unary : Kept .unary := fun ts => by
  rw [answer, Parser.unary.eq_def]
  cases ts with
  | nil =>
    refine .look (.error ?_ rfl)
    show ofStep <$> Parser.primary [] = _
    rw [Parser.primary]
    rfl
  | cons t rest =>
    refine .token ?_
    dsimp only
    split
    · exact .skip (.step rfl rfl fun e _ _ => .done rfl rfl)
    split
    · refine .skip (.ite (fun hint => ?_) ?_)
      · cases rest with
        | nil => cases hint
        | cons n rest =>
          -- the sign and the number are one literal
          rw [Parser.expect, if_pos (show n.kind = .integer from hint)]
          refine .token ?_
          dsimp only [bind, Except.bind]
          cases integerValue? true n.text with
          | none => exact .stop rfl rfl
          | some value => exact .skip (.done rfl rfl)
      · exact .step rfl rfl fun e _ _ => .done rfl rfl
    · rw [← bind_pure (Parser.primary _)]
      exact .step rfl rfl fun e _ _ => .done rfl rfl

/-- A name is a call if a parenthesis follows it. -/
theorem kept_primary : Kept .primary := fun ts => by
  rw [answer, Parser.primary.eq_def]
  cases ts with
  | nil => exact .stop rfl rfl
  | cons t rest =>
    refine .token ?_
    dsimp only
    cases t.kind with
    | integer =>
      cases integerValue? false t.text with
      | none => exact .stop rfl rfl
      | some value => exact .skip (.done rfl rfl)
    | character =>
      rcases t.text.toList with _ | ⟨c, _ | ⟨d, cs⟩⟩
      · exact .stop rfl rfl
      · exact .skip (.done rfl rfl)
      · exact .stop rfl rfl
    | string => exact .skip (.done rfl rfl)
    | identifier =>
      refine .skip ?_
      -- the plan looks two tokens ahead, so the text may end before either of them
      rcases rest with _ | ⟨p, _ | ⟨a, rest⟩⟩
      · exact .look (.done rfl rfl)
      · refine .token ?_
        dsimp only
        split
        · refine .skip (.look (.error ?_ rfl))
          show ofStep <$> Parser.arguments [] = _
          rw [Parser.arguments, assignment_nil]
          rfl
        · exact .done rfl rfl
      · refine .token ?_
        dsimp only
        split
        · exact .skip (.token (.step rfl rfl fun args _ _ => .done rfl rfl))
        · exact .done rfl rfl
    | leftParen =>
      refine .skip (.step rfl rfl fun e _ _ => ?_)
      exact .expect rfl fun _ _ _ => .done rfl rfl
    | _ => exact .stop rfl rfl

theorem kept_arguments : Kept .arguments := fun ts => by
  rw [answer, Parser.arguments]
  refine .ite (fun _ => .expect rfl fun _ _ _ => .done rfl rfl) ?_
  refine .step rfl rfl fun e _ _ => ?_
  refine .ite (fun _ => .expect rfl fun _ _ _ => ?_) (.expect rfl fun _ _ _ => .done rfl rfl)
  exact .step rfl rfl fun es _ _ => .done rfl rfl

end Routine

open Routine in
/-- Every routine keeps to the contract. -/
theorem covers_plan : contract.Covers plan := by
  intro r
  cases r
  exacts [kept_program, kept_external, kept_type, kept_declarator _ _, kept_initializer,
    kept_vars _, kept_varDecl, kept_function _ _, kept_params, kept_param, kept_paramList,
    kept_block, kept_statements, kept_statement, kept_returnValue, kept_condition, kept_assignment,
    kept_binary _, kept_operands _, kept_unary, kept_primary, kept_arguments]

theorem Routine.rank_le (r : Routine) : r.rank ≤ 16 := by
  cases r <;> simp only [rank] <;> omega

/-- The budget of the contract is less than 192 steps for each token and for the end. -/
theorem run_plan (r : Routine) (ts : List Token) {n : Nat} (hn : 192 * (ts.length + 1) ≤ n) :
    run Routine.plan r ts n = .ended (r.answer ts) := by
  have hrank := r.rank_le
  refine covers_plan.run_eq r ts ?_
  -- a call costs 192 for each token, 10 for each rank and a fee of 6
  show 192 * ts.length + 10 * r.rank + 6 < n
  omega

/-- In some run the routine `caller.1`, called at the tokens `caller.2`, calls the routine
`callee.1` at `callee.2`. -/
def Calls (caller callee : Routine × List Token) : Prop :=
  ∃ main source n next stack,
    run Routine.plan main source n = .running caller.1 caller.2 callee.2 (.call callee.1 next) stack

/-- A call reads something first, or goes down in rank. -/
theorem Calls.descend {caller callee : Routine × List Token} (h : Calls caller callee) :
    callee.2.length < caller.2.length ∨ callee.2 = caller.2 ∧ callee.1.rank < caller.1.rank := by
  obtain ⟨main, source, n, next, stack, hrun⟩ := h
  exact covers_plan.calls hrun

/-- The tokens that are left and the rank go down together, in this order. -/
theorem Calls.wellFounded : WellFounded fun callee caller => Calls caller callee := by
  let size (c : Routine × List Token) : Nat × Nat := (c.2.length, c.1.rank)
  refine Subrelation.wf (fun h => ?_) (invImage size (Prod.lex Nat.lt_wfRel Nat.lt_wfRel)).wf
  rcases h.descend with hlt | ⟨htokens, hrank⟩
  · exact .left _ _ hlt
  · exact Prod.lex_def.mpr (.inr ⟨congrArg List.length htokens, hrank⟩)

/-- The second is a pass of the loop that the first is a pass of. -/
def Routine.SameLoop : Routine → Routine → Prop
  | .program, .program | .declarator _ _, .declarator _ _ | .vars _, .vars _
  | .paramList, .paramList | .statements, .statements | .arguments, .arguments => True
  | .operands level, .operands level' => level = level'
  | _, _ => False

/-- Each token takes a character of the text. -/
theorem length_tokens_le (text : List Char) :
    (TokenStream.ofText text).tokens.length ≤ text.length := by
  have hle : (TokenStream.ofText text).described.length ≤ (beforeMark .code text).length :=
    (TokenStream.partition_beforeMark (Cursor.start text)).length_le
  obtain ⟨rest, htext, -⟩ := exists_eq_beforeMark_append .code text
  rw [TokenStream.described, List.length_map] at hle
  exact hle.trans (List.IsPrefix.length_le ⟨rest, htext.symm⟩)

/-- What a run says about a text, when it is over. -/
def State.report? (stream : TokenStream) :
    State Routine.Value .program → Option (Except ParseError Program)
  | .running _ _ _ _ _ => none
  | .ended (.ok (es, _)) => some (.ok ⟨(stream.tokens.head?.map (·.pos)).getD stream.stop, es⟩)
  | .ended (.error m) => some (.error ⟨m.cause, m.rest.head?.getD stream.endToken⟩)

/-- Parsing comes to an end, whatever the text. A routine that returns has read the tokens that it
must. A call is made at fewer tokens, or at the same ones and down in rank, so no chain of calls is
endless. At the end of the text no loop makes another pass. Runs take at most 192 steps for each
token, and 192 more, to give the parser's answer. -/
theorem parsing_terminates :
    (∀ main source n r entry rest v stack, run Routine.plan main source n = .running r entry rest
      (.done v) stack →
      r.answer entry = .ok (v, rest) ∧ ∃ read, entry = read ++ rest ∧ r.least ≤ read.length) ∧
    (∀ caller callee, Calls caller callee →
      callee.2.length < caller.2.length ∨ callee.2 = caller.2 ∧ callee.1.rank < caller.1.rank) ∧
    (∀ r : Routine, r.rank ≤ 16) ∧ (WellFounded fun callee caller => Calls caller callee) ∧
    (∀ r r' ts, r.SameLoop r' → ¬Calls (r, []) (r', ts)) ∧
    (∀ r ts n, 192 * (ts.length + 1) ≤ n → run Routine.plan r ts n = .ended (r.answer ts)) ∧
    ∀ text n, 192 * (text.length + 1) ≤ n →
      (run Routine.plan .program (TokenStream.ofText text).tokens n).report?
      (TokenStream.ofText text) = some (Program.ofText text) := by
  refine ⟨fun main source n r entry rest v stack h => ?_, fun _ _ => Calls.descend, Routine.rank_le,
    Calls.wellFounded, ?_, fun r ts n => run_plan r ts, fun text n hn => ?_⟩
  · obtain ⟨hanswer, ⟨read, rfl⟩, hleast⟩ := covers_plan.returns h
    change rest.length + r.least ≤ _ at hleast
    rw [List.length_append] at hleast
    exact ⟨hanswer, read, rfl, by omega⟩
  · intro r r' ts hloop hcall
    rcases hcall.descend with hlt | ⟨-, hrank⟩
    · exact absurd hlt (Nat.not_lt_zero _)
    · -- the passes of a loop have one rank
      unfold Routine.SameLoop at hloop
      split at hloop
      case h_8 => exact hloop
      all_goals simp at hrank
  · have htokens := length_tokens_le text
    rw [run_plan _ _ (by omega), Routine.answer, Program.ofText]
    cases Parser.externals (TokenStream.ofText text).tokens <;> rfl

end CSubset.Descent
