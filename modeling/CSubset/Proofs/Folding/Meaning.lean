import CSubset.Proofs.Execution.Success
import CSubset.Proofs.Folding.Copies
import Mathlib

/-!
# Folding preserves meaning

A folded tree does what the tree does that it was made from: every expression and every statement of
it is the same step on stores (`eval_folded`, `exec_folded`), so a function of a folded program
gives the same result with any amount of fuel, or fails in the same way, and leaves the same world.

This needs a convention under which the least number divided by minus one wraps around, as it does
when constants are folded. No other operation is computed twice: an operand that folding removes is
a constant, which is evaluated without an effect.
-/

namespace CSubset.Execution

open Node

variable {m n : Option Node} {ms ns : List (Option Node)} {dead : Bool} {v x y : Int32}

/-! ## Operations on constants -/

/-- What folding computes is what the operator means. -/
theorem value?_of_evalCoded {conv : Convention} (hwraps : conv.quotientWraps = true)
    {op : Coded ArithOp} (h : evalCoded op x y = .ok v) :
    ∃ op', op = .known op' ∧ op'.value? conv x y = some v := by
  have hdivides : y ≠ 0 → conv.divides x y = true := by
    intro hy
    simp [Convention.divides, hwraps, hy]
  cases op with
  | unknown code => cases h
  | known op =>
    refine ⟨op, rfl, ?_⟩
    cases op with
    | add => rw [value?_add, Except.ok.inj h]
    | sub => rw [value?_sub, Except.ok.inj h]
    | mul => rw [value?_mul, Except.ok.inj h]
    | div =>
      simp only [evalCoded, ArithOp.eval] at h
      split at h
      · cases h
      · next hy => rw [value?_div, if_pos (hdivides hy), Except.ok.inj h]
    | mod =>
      simp only [evalCoded, ArithOp.eval] at h
      split at h
      · cases h
      · next hy => rw [value?_mod, if_pos (hdivides hy), Except.ok.inj h]

variable {S : Setting} {scope : Scope}

/-- An operator on two constants is a constant, if it has a value. -/
theorem combine_const {op : ArithOp} (h : op.value? S.conv x y = some v) :
    combine S (.arithmetic (.known op)) (pure x) (pure y) = pure (some v) := by
  simp only [combine, BinaryForm.operation?, pure_bind, h]

/-! ## Expressions -/

theorem eval_assign (l : Stamp) (left right : Option Node) :
    eval S scope (.binary l .assign left right) =
      match names? left with
      | some (names, _) => do
        let target ← place S scope names
        let v ← evalOperand S scope right
        write v target
        return some v
      | none => throw .malformed := by
  cases left with
  | none => rfl
  | some t =>
    cases t with
    | leaf l' form => cases form <;> rfl
    | _ => rfl

theorem eval_operator (l : Stamp) {form : BinaryForm} (left right : Option Node)
    (hform : form ≠ .assign) :
    eval S scope (.binary l form left right) =
      combine S form (evalOperand S scope left) (evalOperand S scope right) := by
  rw [eval]
  exact fun _ _ _ h => absurd h hform

/-- The same expressions. -/
abbrev SameValue (S : Setting) (scope : Scope) (n m : Node) : Prop :=
  eval S scope m = eval S scope n

theorem evalOperand_folded (h : Both (SameValue S scope) n m) :
    evalOperand S scope m = evalOperand S scope n := by
  cases h with
  | none => rfl
  | some h => rw [evalOperand, evalOperand, h.2]

theorem evalOperands_folded (h : List.Forall₂ (Both (SameValue S scope)) ns ms) :
    evalOperands S scope ms = evalOperands S scope ns := by
  induction h with
  | nil => rfl
  | cons hfirst _ ih => rw [evalOperands, evalOperands, evalOperand_folded hfirst, ih]

theorem evalArgs_folded (h : Option.Rel Folded n m)
    (hmembers : ∀ {l l' f items items'}, n = some (.seq l f items) → m = some (.seq l' f items') →
      List.Forall₂ (Both (SameValue S scope)) items items') :
    evalArgs S scope m = evalArgs S scope n := by
  cases h with
  | none => rfl
  | some h =>
    cases h with
    | @seq stamp stamp' form items items' hpos hitems =>
      cases form with
      | parameters => exact evalOperands_folded (hmembers rfl rfl)
      | program => rfl
      | block => rfl
    | _ => rfl

/-- A folded expression is the same step. -/
theorem eval_folded (hwraps : S.conv.quotientWraps = true) {n m : Node} (h : Folded n m) :
    eval S scope m = eval S scope n := by
  refine Folded.ind ?leaf ?seq ?unary ?binary ?constant ?ternary h
  case leaf =>
    intro stamp stamp' form hpos
    cases form <;> rfl
  case seq =>
    intros
    rfl
  case unary =>
    intro stamp stamp' form child child' hpos hchild hmembers
    cases form with
    | call callee => rw [eval, eval, evalArgs_folded hchild.folded hmembers]
    | signature name => rfl
    | ret => rfl
  case binary =>
    intro stamp stamp' form left left' right right' hpos hleft hright hnone
    by_cases hform : form = .assign
    · rw [hform, eval_assign, eval_assign, names?_folded hleft.folded, evalOperand_folded hright]
    · rw [eval_operator _ _ _ hform, eval_operator _ _ _ hform, evalOperand_folded hleft,
        evalOperand_folded hright]
  case constant =>
    intro stamp stamp' form left left' right right' v hpos hleft hright hv
    -- both operands have become constants
    obtain ⟨op, l₁, x, l₂, y, rfl, rfl, rfl, hvalue⟩ := BinaryForm.constant?_eq_some.mp hv
    obtain ⟨op, rfl, hop⟩ := value?_of_evalCoded hwraps hvalue
    rw [eval_operator _ _ _ (by simp), ← evalOperand_folded hleft, ← evalOperand_folded hright]
    exact (combine_const hop).symm
  case ternary =>
    intros
    rfl

/-! ## Statements

Executing the copy takes the same steps, since conditions and values are the same. -/

theorem declares?_binary (l : Stamp) (form : BinaryForm) (left right : Option Node) :
    declares? (.binary l form left right) =
      if form = .declaration ∨ form = .forward then (names? right).bind fun p => Tree.singleName?
        p.1 else none := by
  cases right with
  | none => cases form <;> rfl
  | some t =>
    cases t with
    | leaf l' leaf => cases leaf <;> cases form <;> rfl
    | _ => cases form <;> rfl

theorem declares?_folded {n m : Node} (h : Folded n m) : declares? m = declares? n := by
  cases h with
  | binary _ _ hright _ => rw [declares?_binary, declares?_binary, names?_folded hright]
  | constant _ _ _ hv =>
    obtain ⟨op, _, _, _, _, rfl, -⟩ := BinaryForm.constant?_eq_some.mp hv
    rfl
  | _ => rfl

theorem passesChild_folded (h : Both (fun n m => passes m = passes n) n m) :
    passesChild m = passesChild n := by
  cases h with
  | none => rfl
  | some h => exact h.2

theorem passes_folded {n m : Node} (h : Folded n m) : passes m = passes n := by
  refine Folded.ind ?leaf ?seq ?unary ?binary ?constant ?ternary h
  case leaf =>
    intros
    rfl
  case seq =>
    intro stamp stamp' form items items' hpos hitems
    have hpasses : passesItems items' = passesItems items := by
      induction hitems with
      | nil => rfl
      | cons hfirst _ ih => rw [passesItems, passesItems, passesChild_folded hfirst, ih]
    cases form with
    | block => exact hpasses
    | program => rfl
    | parameters => rfl
  case unary =>
    intro stamp stamp' form child child' hpos hchild hmembers
    cases form <;> rfl
  case binary =>
    intros
    rfl
  case constant =>
    intros
    rfl
  case ternary =>
    intro stamp stamp' form first first' second second' third third' hpos hfirst hsecond hthird
    cases form with
    | ifThenElse => rw [passes, passes, passesChild_folded hsecond, passesChild_folded hthird]
    | definition => rfl

theorem declaredChild_folded (h : Both (fun n m => declared dead m = declared dead n) n m) :
    declaredChild dead m = declaredChild dead n := by
  cases h with
  | none => rfl
  | some h => exact h.2

/-- Folding touches no declaration. -/
theorem declared_folded {n m : Node} (h : Folded n m) : declared dead m = declared dead n := by
  refine Folded.ind ?leaf ?seq ?unary ?binary ?constant ?ternary h
  case leaf =>
    intros
    rfl
  case seq =>
    intro stamp stamp' form items items' hpos hitems
    have hdeclared : declaredItems dead items' = declaredItems dead items := by
      induction hitems with
      | nil => rfl
      | cons hfirst _ ih =>
        have hpasses := passesChild_folded (.of_folded passes_folded hfirst.folded)
        rw [declaredItems, declaredItems, declaredChild_folded hfirst, hpasses, ih]
    cases form with
    | block => exact hdeclared
    | program => rfl
    | parameters => rfl
  case unary =>
    intros
    rfl
  case binary =>
    intro stamp stamp' form left left' right right' hpos hleft hright hnone
    have hdeclares := declares?_folded (.binary hpos hleft.folded hright.folded hnone)
    cases form with
    | ifThen => exact declaredChild_folded hright
    | «while» => exact declaredChild_folded hright
    | _ => exact congrArg Option.toList hdeclares
  case constant =>
    intro stamp stamp' form left left' right right' v hpos hleft hright hv
    obtain ⟨op, _, _, _, _, rfl, -⟩ := BinaryForm.constant?_eq_some.mp hv
    rfl
  case ternary =>
    intro stamp stamp' form first first' second second' third third' hpos hfirst hsecond hthird
    cases form with
    | ifThenElse =>
      rw [declared, declared, declaredChild_folded hsecond, declaredChild_folded hthird]
    | definition => rfl

/-- The same statements, with whatever is declared before them. -/
abbrev SameFlow (S : Setting) (n m : Node) : Prop := ∀ scope, exec S scope m = exec S scope n

theorem execChild_folded (h : Both (SameFlow S) n m) (scope : Scope) :
    execChild S scope m = execChild S scope n := by
  cases h with
  | none => rfl
  | some h => rw [execChild, execChild, h.2]

theorem execItems_folded (h : List.Forall₂ (Both (SameFlow S)) ns ms) (scope : Scope) :
    execItems S scope ms = execItems S scope ns := by
  induction h generalizing scope with
  | nil => rfl
  | @cons n m ns ms hfirst _ ih =>
    have hdeclared : declaredChild S.conv.deadDeclares m = declaredChild S.conv.deadDeclares n :=
      declaredChild_folded (.of_folded declared_folded hfirst.folded)
    rw [execItems, execItems, execChild_folded hfirst, hdeclared]
    simp only [ih]

theorem execDeclaration_folded {n m : Node} (h : declares? m = declares? n) :
    execDeclaration S scope m = execDeclaration S scope n := by
  rw [execDeclaration, execDeclaration, h]

/-- A folded statement is the same step. -/
theorem exec_folded (hwraps : S.conv.quotientWraps = true) {n m : Node} (h : Folded n m) :
    SameFlow S n m := by
  have hoperand : ∀ {n m : Option Node}, Option.Rel Folded n m → ∀ scope,
      evalOperand S scope m = evalOperand S scope n :=
    fun h scope => evalOperand_folded (.of_folded (eval_folded hwraps) h)
  have hvalue : ∀ {n m : Node}, Folded n m →
      ∀ scope, (do let _ ← eval S scope m; return Flow.next) =
      (do let _ ← eval S scope n; return Flow.next) :=
    fun h scope => by rw [eval_folded hwraps h]
  refine Folded.ind ?leaf ?seq ?unary ?binary ?constant ?ternary h
  case leaf => exact fun hpos scope => hvalue (.leaf hpos) scope
  case seq =>
    intro stamp stamp' form items items' hpos hitems scope
    cases form with
    | block => exact execItems_folded hitems scope
    | program => rfl
    | parameters => rfl
  case unary =>
    intro stamp stamp' form child child' hpos hchild hmembers scope
    cases form with
    | ret =>
      cases hchild with
      | none => rfl
      | some h => rw [exec, exec, hoperand (.some h.1)]
    | signature name => rfl
    | call callee => exact hvalue (.unary hpos hchild.folded) scope
  case binary =>
    intro stamp stamp' form left left' right right' hpos hleft hright hnone scope
    have hcopy : Folded (.binary stamp form left right) (.binary stamp' form left' right') :=
      .binary hpos hleft.folded hright.folded hnone
    cases form with
    | ifThen => rw [exec, exec, hoperand hleft.folded, execChild_folded hright]
    | «while» => rw [exec, exec, hoperand hleft.folded, execChild_folded hright]
    | declaration => exact execDeclaration_folded (declares?_folded hcopy)
    | forward => exact execDeclaration_folded (declares?_folded hcopy)
    | _ => exact hvalue hcopy scope
  case constant =>
    intro stamp stamp' form left left' right right' v hpos hleft hright hv scope
    -- as a statement, arithmetic is only evaluated, and so is the constant in its place
    have hcopy := hvalue (.constant hpos hleft.folded hright.folded hv) scope
    obtain ⟨op, _, _, _, _, rfl, -⟩ := BinaryForm.constant?_eq_some.mp hv
    exact hcopy
  case ternary =>
    intro stamp stamp' form first first' second second' third third' hpos hfirst
      hsecond hthird scope
    cases form with
    | ifThenElse =>
      have hdeclared : declaredChild S.conv.deadDeclares second' =
          declaredChild S.conv.deadDeclares second :=
        declaredChild_folded (.of_folded declared_folded hsecond.folded)
      rw [exec, exec, hoperand hfirst.folded, hdeclared, execChild_folded hsecond,
        execChild_folded hthird]
    | definition => rfl

/-! ## Programs -/

theorem members_folded {form : SeqForm} (h : Option.Rel Folded n m) :
    FoldedItems (members form n) (members form m) := by
  cases h with
  | none => exact .nil
  | some h =>
    cases h with
    | @seq stamp stamp' f items items' hpos hitems =>
      dsimp only [members]
      by_cases hf : f = form
      · rw [if_pos hf, if_pos hf]
        exact hitems
      · rw [if_neg hf, if_neg hf]
        exact .nil
    | _ => exact .nil

theorem paramName?_folded (h : Option.Rel Folded n m) : paramName? m = paramName? n := by
  have hbinary : ∀ (l : Stamp) (left right : Option Node), paramName?
      (some (.binary l .declaration left right)) = (names? right).bind fun p =>
      Tree.singleName? p.1 := by
    intro l left right
    cases right with
    | none => rfl
    | some t =>
      cases t with
      | leaf l' form => cases form <;> rfl
      | _ => rfl
  cases h with
  | none => rfl
  | some h =>
    cases h with
    | @binary stamp stamp' form left left' right right' _ _ hright _ =>
      cases form with
      | declaration => rw [hbinary, hbinary, names?_folded hright]
      | _ => rfl
    | constant _ _ _ hv =>
      obtain ⟨op, _, _, _, _, rfl, -⟩ := BinaryForm.constant?_eq_some.mp hv
      rfl
    | _ => rfl

theorem mapM_paramName?_folded (h : FoldedItems ns ms) :
    ms.mapM paramName? = ns.mapM paramName? := by
  induction h with
  | nil => rfl
  | cons hfirst _ ih => rw [List.mapM_cons, List.mapM_cons, paramName?_folded hfirst, ih]

/-- `e` is the folded copy of the function `d`. -/
def Definition.Folded (d e : Definition Stamp) : Prop :=
  e.params = d.params ∧ FoldedItems d.body e.body

/-- The copy of a definition has its name and parameters, and the folded body. -/
theorem ofTree?_folded {name : String} {n m : Node} (h : Folded n m) :
    Option.Rel Definition.Folded (Definition.ofTree? name n) (Definition.ofTree? name m) := by
  cases h with
  | @ternary stamp stamp' form first first' second second' third third' _ _ hsecond hthird =>
    cases form with
    | ifThenElse => exact .none
    | definition =>
      cases hsecond with
      | none => exact .none
      | some hsecond =>
        cases hsecond with
        | @unary l l' f params params' _ hparams =>
          cases f with
          | signature f =>
            cases hthird with
            | none => exact .none
            | @some body body' hbody =>
              have hlists : FoldedItems (members .parameters params)
                  (members .parameters params') :=
                members_folded hparams
              have hbodies : FoldedItems (members .block (some body))
                  (members .block (some body')) :=
                members_folded (.some hbody)
              dsimp only [Definition.ofTree?]
              by_cases hf : f = name
              · rw [if_pos hf, if_pos hf, mapM_paramName?_folded hlists]
                cases List.mapM paramName? (members .parameters params) with
                | none => exact .none
                | some names => exact .some ⟨rfl, hbodies⟩
              · rw [if_neg hf, if_neg hf]
                exact .none
          | _ => exact .none
        | @leaf l l' form => cases form <;> exact .none
        | _ => exact .none
  | _ => exact .none

section

variable {program copy : TopLevel Stamp}

theorem definition?_folded (h : FoldedItems program copy) (name : String) :
    Option.Rel Definition.Folded (program.definition? name) (copy.definition? name) := by
  unfold TopLevel.definition?
  induction h with
  | nil => exact .none
  | @cons n m ns ms hfirst _ ih =>
    have hhead : Option.Rel Definition.Folded (n.bind (Definition.ofTree? name))
        (m.bind (Definition.ofTree? name)) := by
      cases hfirst with
      | none => exact .none
      | some h => exact ofTree?_folded h
    rw [List.findSome?_cons, List.findSome?_cons]
    -- the first function of the name is here, or further on
    rcases rel_cases hhead with ⟨hn, hm⟩ | ⟨d, e, hn, hm, h⟩
    · rw [hn, hm]
      exact ih
    · rw [hn, hm]
      exact .some h

theorem isGlobal_folded (h : FoldedItems program copy) : copy.isGlobal = program.isGlobal := by
  funext name
  unfold TopLevel.isGlobal
  induction h with
  | nil => rfl
  | @cons n m ns ms hfirst _ ih =>
    have hhead : m.bind declares? = n.bind declares? := by
      cases hfirst with
      | none => rfl
      | some h => exact declares?_folded h
    rw [List.any_cons, List.any_cons, hhead, ih]

theorem execute_folded (hwraps : S.conv.quotientWraps = true) {d e : Definition Stamp}
    (h : d.Folded e) (name : String) (args : List Int32) (w : World) :
    e.execute S name args w = d.execute S name args w := by
  obtain ⟨hparams, hbody⟩ := h
  have hitems : List.Forall₂ (Both (SameFlow S)) d.body e.body :=
    hbody.imp fun _ _ h => .of_folded (exec_folded hwraps) h
  unfold Definition.execute
  rw [hparams, execItems_folded hitems]

/-- A function of a folded program does what it did, with any amount of fuel. -/
theorem run_folded {conv : Convention} (hwraps : conv.quotientWraps = true)
    (h : FoldedItems program copy) (outside : Outside) (fuel : Nat) :
    copy.run conv outside fuel = program.run conv outside fuel := by
  induction fuel with
  | zero =>
    funext name args w
    rcases rel_cases (definition?_folded h name) with ⟨hn, hm⟩ | ⟨d, e, hn, hm, -⟩
    · unfold TopLevel.run
      rw [hn, hm]
    · rw [run_zero hn, run_zero hm]
  | succ fuel ih =>
    funext name args w
    rcases rel_cases (definition?_folded h name) with ⟨hn, hm⟩ | ⟨d, e, hn, hm, hd⟩
    · unfold TopLevel.run
      rw [hn, hm]
    · rw [run_succ hn, run_succ hm, isGlobal_folded h, ih]
      exact execute_folded hwraps hd name args w

end

/-- Folding preserves meaning. The folded file has a body for the same functions, and calling a
function on any arguments, in any world, with any interpretation of the functions without a body and
with any amount of fuel ends in the same way: with the same value, or for the same reason without
one, or not yet; and in the same world, which tells what was stored and called so far. -/
theorem fold_preserves_run {generation : UInt32} {f g : File} (hfold : f.fold generation = .ok g)
    {conv : Convention} (hwraps : conv.quotientWraps = true) (outside : Outside) (name : String) :
    (((TopLevel.ofRoot g.root).definition? name).isSome ↔
      ((TopLevel.ofRoot f.root).definition? name).isSome) ∧
    ∀ (fuel : Nat) (args : List Int32) (w : World),
      (TopLevel.ofRoot g.root).run conv outside fuel name args w =
        (TopLevel.ofRoot f.root).run conv outside fuel name args w := by
  have hitems : FoldedItems (TopLevel.ofRoot f.root) (TopLevel.ofRoot g.root) :=
    members_folded (rel_of_fold hfold)
  constructor
  · rcases rel_cases (definition?_folded hitems name) with ⟨hn, hm⟩ | ⟨d, e, hn, hm, -⟩
      <;> simp [hn, hm]
  · intro fuel args w
    rw [run_folded hwraps hitems]

/-- A program that counts up to six in steps of a quotient that wraps around, and then divides by
zero: `int f(int a) { while (a < 2 * 3) a = a + least / -1 / least; return a / (a - 6); }`. -/
def overrun : Sketch :=
  let int : Option Sketch := some (.leaf none (.type (.known .int) false))
  let name (x : String) : Option Sketch := some (.leaf none (.names [x] 0))
  let const (v : Int32) : Option Sketch := some (.leaf none (.intConst v))
  let arithmetic (op : ArithOp) (x y : Option Sketch) : Option Sketch :=
    some (.binary none (.arithmetic (.known op)) x y)
  .seq none .program
    [some (.ternary none .definition int
      (some (.unary none (.signature "f")
        (some (.seq none .parameters [some (.binary none .declaration int (name "a"))]))))
      (some (.seq none .block
        [some (.binary none .while
            (some (.binary none (.comparison (.known .lt)) (name "a")
              (arithmetic .mul (const 2) (const 3))))
            (some (.binary none .assign (name "a")
              (arithmetic .add (name "a")
                (arithmetic .div (arithmetic .div (const Int32.minValue) (const (-1)))
                  (const Int32.minValue)))))),
          some (.unary none .ret
            (arithmetic .div (name "a") (arithmetic .sub (name "a") (const 6))))])))]

theorem overrun_preserved :
    ∃ g, (File.ofSketch 0 "a.c" (some overrun)).fold 1 = .ok g ∧
    (TopLevel.ofRoot g.root).run ⟨none, true, true⟩ (fun _ _ _ _ => none) 4 "f" [4]
      ⟨fun _ => 0, []⟩ =
      (.error .noResult, ⟨fun _ => 0, []⟩) := by
  have hfold : ((File.ofSketch 0 "a.c" (some overrun)).fold 1).isOk = true := by decide +kernel
  cases hg : (File.ofSketch 0 "a.c" (some overrun)).fold 1 with
  | error e => simp [hg, Except.isOk, Except.toBool] at hfold
  | ok g =>
    refine ⟨g, rfl, ?_⟩
    rw [(fold_preserves_run hg rfl (fun _ _ _ _ => none) "f").2 4 [4] ⟨fun _ => 0, []⟩]
    cbv

end CSubset.Execution
