import CSubset.Proofs.Execution.Tree
import CSubset.Proofs.Success
import CSubset.Proofs.Tree.Induction

/-!
# Executions that succeed

What it takes for an expression to have a value and for a statement to end, one lemma for each form
of node.
-/

namespace CSubset.Execution

variable {σ : Type} {S : Setting} {scope : Scope} {st st' : Store} {l : σ} {v : Option Int32}
  {flow : Flow} {x : Int32} {form : BinaryForm} {callee name : String} {i : Nat} {u : Unit}
  {xs : List Int32}

/-! ## Variables -/

theorem gives_place {names : List String} {p : Place} :
    Gives (place S scope names) st p st' ↔ ∃ x, Tree.singleName? names = some x ∧ st' = st ∧
      ((∃ i, scope.index? x = some i ∧ p = .var i) ∨
        (scope.index? x = none ∧ S.isGlobal x = true ∧ p = .global x)) := by
  unfold place
  cases Tree.singleName? names with
  | none => simp
  | some x =>
    cases hx : scope.index? x with
    | some i => simp [hx, and_comm]
    | none =>
      cases hglobal : S.isGlobal x <;> simp [hx, hglobal, and_comm]

@[simp] theorem gives_read_global :
    Gives (read (.global name)) st x st' ↔ x = st.world.globals name ∧ st' = st := by
  unfold read
  simp [and_assoc, and_comm]

@[simp] theorem gives_read_var :
    Gives (read (.var i)) st x st' ↔ st.locals i = some (some x) ∧ st' = st := by
  unfold read
  simp only [gives_bind, gives_get, and_assoc, exists_and_left, exists_eq_left]
  rcases st.locals i with _ | _ | y <;> simp [eq_comm]

@[simp] theorem gives_write_global :
    Gives (write x (.global name)) st u st' ↔
      st' = { st with world := st.world.setGlobal name x } :=
  gives_modify

@[simp] theorem gives_write_var :
    Gives (write x (.var i)) st u st' ↔ st.locals i ≠ none ∧ st' = st.setLocal i (some x) := by
  unfold write
  simp only [gives_bind, gives_get, and_assoc, exists_and_left, exists_eq_left]
  cases st.locals i <;> simp

theorem gives_invoke {args : List Int32} :
    Gives (invoke S callee args) st v st' ↔
      S.call callee args st.world = (.ok v, st'.world) ∧ st'.locals = st.locals := by
  have hrun : invoke S callee args st =
      ((S.call callee args st.world).1, { st with world := (S.call callee args st.world).2 }) := rfl
  unfold Gives
  rw [hrun]
  cases st'
  simp [Prod.ext_iff, eq_comm, and_assoc]

/-! ## Expressions

One equivalence for each form, as for lowering. -/

/-- A number is its value, and a name has the one that its place holds. -/
theorem gives_eval_leaf {form : Leaf} :
    Gives (eval S scope (.leaf l form)) st v st' ↔
      (∃ c, form = .intConst c ∧ v = some c ∧ st' = st) ∨
      (∃ names stars p x, form = .names names stars ∧ Gives (place S scope names) st p st ∧
        Gives (read p) st x st' ∧ v = some x) := by
  cases form with
  | intConst c => simp [eval]
  | strConst c => simp [eval]
  | identifier c => simp [eval]
  | type tag c => simp [eval]
  | names names stars =>
    simp only [eval, gives_bind, gives_pure]
    constructor
    · rintro ⟨p, _, hp, x, _, hx, rfl, rfl⟩
      obtain ⟨_, _, rfl, _⟩ := gives_place.mp hp
      exact .inr ⟨names, stars, p, x, rfl, hp, hx, rfl⟩
    · rintro (⟨c, h, -⟩ | ⟨_, _, p, x, h, hp, hx, rfl⟩)
      · simp at h
      · cases h
        exact ⟨p, st, hp, x, st', hx, rfl, rfl⟩

example : Gives (eval S scope (.leaf l (.intConst 7))) st (some 7) st := rfl

theorem gives_evalOperand {t : Option (Tree σ)} :
    Gives (evalOperand S scope t) st x st' ↔ ∃ t', t = some t' ∧
      Gives (eval S scope t') st (some x) st' := by
  cases t with
  | none => simp [evalOperand]
  | some t =>
    simp only [evalOperand, gives_bind, Option.some.injEq, exists_eq_left']
    constructor
    · rintro ⟨_ | y, t', hy, h⟩
      · simp [require] at h
      · obtain ⟨rfl, rfl⟩ : x = y ∧ st' = t' := by simpa [require] using h
        exact hy
    · intro h
      exact ⟨some x, st', h, by simp [require]⟩

theorem gives_evalOperands_nil :
    Gives (evalOperands S scope ([] : List (Option (Tree σ)))) st xs st' ↔ xs = [] ∧ st' = st := by
  simp [evalOperands]

theorem gives_evalOperands_cons {t : Option (Tree σ)} {ts : List (Option (Tree σ))} :
    Gives (evalOperands S scope (t :: ts)) st xs st' ↔
      ∃ y st₁ ys, Gives (evalOperand S scope t) st y st₁ ∧
        Gives (evalOperands S scope ts) st₁ ys st' ∧
        xs = y :: ys := by
  simp only [evalOperands, gives_bind, gives_pure]
  constructor
  · rintro ⟨y, st₁, hy, ys, _, hys, rfl, rfl⟩
    exact ⟨y, st₁, ys, hy, hys, rfl⟩
  · rintro ⟨y, st₁, ys, hy, hys, rfl⟩
    exact ⟨y, st₁, hy, ys, st', hys, rfl, rfl⟩

theorem gives_eval_call {args : Option (Tree σ)} :
    Gives (eval S scope (.unary l (.call callee) args)) st v st' ↔
      ∃ xs st₁, Gives (evalArgs S scope args) st xs st₁ ∧ Gives (invoke S callee xs) st₁ v st' := by
  rw [eval]
  simp

/-- The place is found before the value is computed, and written after that. -/
theorem gives_eval_assign {left right : Option (Tree σ)} :
    Gives (eval S scope (.binary l .assign left right)) st v st' ↔
      ∃ l' names stars p x st₁ u, left = some (.leaf l' (.names names stars)) ∧
        Gives (place S scope names) st p st ∧
        Gives (evalOperand S scope right) st x st₁ ∧ Gives (write x p) st₁ u st' ∧ v = some x := by
  by_cases hleft : ∃ l' names stars, left = some (.leaf l' (.names names stars))
  · obtain ⟨l', names, stars, rfl⟩ := hleft
    simp only [eval, gives_bind, gives_pure]
    constructor
    · rintro ⟨p, _, hp, x, st₁, hx, u, _, hw, rfl, rfl⟩
      obtain ⟨_, _, rfl, _⟩ := gives_place.mp hp
      exact ⟨l', names, stars, p, x, st₁, u, rfl, hp, hx, hw, rfl⟩
    · rintro ⟨_, _, _, p, x, st₁, u, h, hp, hx, hw, rfl⟩
      cases h
      exact ⟨p, st, hp, x, st₁, hx, u, st', hw, rfl, rfl⟩
  · have hthrow : eval S scope (.binary l .assign left right) =
        combine S .assign (evalOperand S scope left) (evalOperand S scope right) := by
      rw [eval]
      exact fun l' names stars _ h => hleft ⟨l', names, stars, h⟩
    simp only [hthrow, combine, BinaryForm.operation?, gives_throw, false_iff]
    rintro ⟨l', names, stars, _, _, _, _, h, -⟩
    exact hleft ⟨l', names, stars, h⟩

/-- Both operands are evaluated, the left one first. -/
theorem gives_eval_operator {left right : Option (Tree σ)} (hform : form ≠ .assign) :
    Gives (eval S scope (.binary l form left right)) st v st' ↔
      ∃ operation x st₁ y r, form.operation? S.conv = some operation ∧
        Gives (evalOperand S scope left) st x st₁ ∧
        Gives (evalOperand S scope right) st₁ y st' ∧ operation x y = some r ∧ v = some r := by
  have heval : eval S scope (.binary l form left right) =
      combine S form (evalOperand S scope left) (evalOperand S scope right) := by
    rw [eval]
    exact fun _ _ _ h => absurd h hform
  rw [heval]
  unfold combine
  cases form.operation? S.conv with
  | none => simp
  | some operation =>
    simp only [gives_bind]
    constructor
    · rintro ⟨x, st₁, hx, y, st₂, hy, h⟩
      cases hr : operation x y with
      | none => simp [hr] at h
      | some r =>
        obtain ⟨rfl, rfl⟩ : v = some r ∧ st' = st₂ := by simpa [hr] using h
        exact ⟨operation, x, st₁, y, r, rfl, hx, hy, hr, rfl⟩
    · rintro ⟨_, x, st₁, y, r, h, hx, hy, hr, rfl⟩
      obtain rfl := Option.some.inj h
      exact ⟨x, st₁, hx, y, st', hy, by simp [hr]⟩

/-! ## Statements -/

/-- A statement is followed by what comes after it, unless it returns. -/
theorem gives_flow {first : ExecM Flow} {rest : ExecM Flow} :
    Gives (do
      match ← first with
      | .next => rest
      | .returned v => return .returned v) st flow st' ↔
      (∃ st₁, Gives first st .next st₁ ∧ Gives rest st₁ flow st') ∨
      (∃ v, Gives first st (.returned v) st' ∧ flow = .returned v) := by
  rw [gives_bind]
  constructor
  · rintro ⟨_ | v, st₁, hfirst, h⟩
    · exact .inl ⟨st₁, hfirst, h⟩
    · obtain ⟨rfl, rfl⟩ := gives_pure.mp h
      exact .inr ⟨v, hfirst, rfl⟩
  · rintro (⟨st₁, hfirst, h⟩ | ⟨v, hfirst, rfl⟩)
    · exact ⟨.next, st₁, hfirst, h⟩
    · exact ⟨.returned v, st', hfirst, gives_pure.mpr ⟨rfl, rfl⟩⟩

theorem gives_execItems_nil :
    Gives (execItems S scope ([] : List (Option (Tree σ)))) st flow st' ↔
      flow = .next ∧ st' = st := by
  simp [execItems]

theorem gives_execItems_cons {t : Option (Tree σ)} {ts : List (Option (Tree σ))} :
    Gives (execItems S scope (t :: ts)) st flow st' ↔
      (∃ st₁, Gives (execChild S scope t) st .next st₁ ∧
        Gives (execItems S (scope.add (declaredChild S.conv.deadDeclares t)) ts) st₁ flow st') ∨
      (∃ v, Gives (execChild S scope t) st (.returned v) st' ∧ flow = .returned v) := by
  rw [execItems]
  exact gives_flow

theorem gives_exec_return {value : Tree σ} :
    Gives (exec S scope (.unary l .ret (some value))) st flow st' ↔
      ∃ x, Gives (evalOperand S scope (some value)) st x st' ∧ flow = .returned (some x) := by
  simp only [exec, gives_bind, gives_pure]
  constructor
  · rintro ⟨x, _, hx, rfl, rfl⟩
    exact ⟨x, hx, rfl⟩
  · rintro ⟨x, hx, rfl⟩
    exact ⟨x, st', hx, rfl, rfl⟩

example : Gives (exec S scope (.unary l .ret (some (.leaf l (.intConst 7))))) st
    (.returned (some 7)) st := by
  rfl

theorem gives_exec_ifThen {cond body : Option (Tree σ)} :
    Gives (exec S scope (.binary l .ifThen cond body)) st flow st' ↔
      ∃ c st₁, Gives (evalOperand S scope cond) st c st₁ ∧
        ((c = 0 ∧ flow = .next ∧ st' = st₁) ∨
          (c ≠ 0 ∧ Gives (execChild S scope body) st₁ flow st')) := by
  simp [exec]

theorem gives_exec_ifThenElse {cond thenBody elseBody : Option (Tree σ)} :
    Gives (exec S scope (.ternary l .ifThenElse cond thenBody elseBody)) st flow st' ↔
      ∃ c st₁, Gives (evalOperand S scope cond) st c st₁ ∧
        ((c = 0 ∧
          Gives (execChild S (scope.add (declaredChild S.conv.deadDeclares thenBody)) elseBody)
          st₁ flow st') ∨
          (c ≠ 0 ∧ Gives (execChild S scope thenBody) st₁ flow st')) := by
  simp [exec]

theorem gives_loop_succ {cond : ExecM Int32} {body : ExecM Flow} {n : Nat} :
    Gives (loop cond body (n + 1)) st flow st' ↔
      ∃ c st₁, Gives cond st c st₁ ∧
        ((c = 0 ∧ flow = .next ∧ st' = st₁) ∨
          (c ≠ 0 ∧ ((∃ st₂, Gives body st₁ .next st₂ ∧ Gives (loop cond body n) st₂ flow st') ∨
            ∃ v, Gives body st₁ (.returned v) st' ∧ flow = .returned v))) := by
  rw [loop, gives_bind]
  constructor
  · rintro ⟨c, st₁, hc, h⟩
    rcases gives_ite.mp h with ⟨hzero, h⟩ | ⟨hzero, h⟩
    · exact ⟨c, st₁, hc, .inl ⟨hzero, gives_pure.mp h⟩⟩
    · exact ⟨c, st₁, hc, .inr ⟨hzero, gives_flow.mp h⟩⟩
  · rintro ⟨c, st₁, hc, ⟨hzero, h⟩ | ⟨hzero, h⟩⟩
    · exact ⟨c, st₁, hc, gives_ite.mpr (.inl ⟨hzero, gives_pure.mpr h⟩)⟩
    · exact ⟨c, st₁, hc, gives_ite.mpr (.inr ⟨hzero, gives_flow.mpr h⟩)⟩

theorem gives_execDeclaration {t : Tree σ} {x : String} (ht : declares? t = some x) :
    Gives (execDeclaration S scope t) st flow st' ↔
      st' = st.setLocal scope.length S.conv.fresh ∧ flow = .next := by
  simp [execDeclaration, ht, and_comm]

theorem declared_binary {dead : Bool} {left right : Option (Tree σ)}
    (h : form.isStatement = false) : declared dead (.binary l form left right) = [] := by
  cases form <;> simp_all [BinaryForm.isStatement, declared, declares?]

/-- An expression as a statement. -/
theorem gives_exec_binary {left right : Option (Tree σ)} (h : form.isStatement = false) :
    Gives (exec S scope (.binary l form left right)) st flow st' ↔
      (∃ v, Gives (eval S scope (.binary l form left right)) st v st') ∧ flow = .next := by
  have hexec : exec S scope (.binary l form left right) = (do
      let _ ← eval S scope (.binary l form left right)
      return .next) := by
    cases form <;> first | rfl | simp [BinaryForm.isStatement] at h
  simp only [hexec, gives_bind, gives_pure]
  grind

/-! ## Programs -/

section

variable {program : TopLevel σ} {conv : Convention} {outside : Outside} {name : String}
  {args : List Int32}
  {w w' : World} {fuel : Nat}

theorem run_eq_ok_of_none (h : program.definition? name = none) :
    program.run conv outside fuel name args w = (.ok v, w') ↔
      outside.call name args w = some (v, w') := by
  rw [TopLevel.run.eq_def]
  simp only [h]
  rcases outside.call name args w with _ | ⟨v₀, w₀⟩ <;> simp

theorem run_zero {d : Definition σ} (h : program.definition? name = some d) :
    program.run conv outside 0 name args w = (.error .outOfFuel, w) := by
  rw [TopLevel.run.eq_def]
  simp only [h]

theorem run_succ {d : Definition σ} (h : program.definition? name = some d) :
    program.run conv outside (fuel + 1) name args w =
      d.execute ⟨conv, program.isGlobal, program.run conv outside fuel, fuel⟩ name args w := by
  rw [TopLevel.run.eq_def]
  simp only [h]

/-- The value that a function returns when its body ends in this way. -/
def Flow.value : Flow → Option Int32
  | .next => none
  | .returned v => v

/-- An execution that ends is one of the body on as many arguments as there are parameters. -/
theorem execute_eq_ok {d : Definition σ} :
    d.execute S name args w = (.ok v, w') ↔ args.length = d.params.length ∧
      ∃ flow st, Gives (execItems S (Scope.add [] d.params) d.body)
        ⟨w, fun i => args[i]?.map some⟩ flow st ∧
        flow.value = v ∧ st.world = w' := by
  unfold Definition.execute
  by_cases hlength : args.length = d.params.length
  · rw [if_pos hlength]
    have hgives : ∀ {flow st}, Gives (execItems S (Scope.add [] d.params) d.body)
        ⟨w, fun i => args[i]?.map some⟩ flow st ↔
        @Eq (Except Halt Flow × Store) ((execItems S (Scope.add [] d.params) d.body).run.run
        ⟨w, fun i => args[i]?.map some⟩) (.ok flow, st) :=
      Iff.rfl
    simp only [hlength, true_and, hgives]
    rcases ((execItems S (Scope.add [] d.params) d.body).run.run ⟨w, fun i => args[i]?.map some⟩ :
      Except Halt Flow × Store) with ⟨h | _ | v₀, st₀⟩
    · simp
    · simp [and_assoc, show Flow.next.value = none from rfl]
    · simp [and_assoc, show (Flow.returned v₀).value = v₀ from rfl]
  · simp [hlength]

end

end CSubset.Execution
