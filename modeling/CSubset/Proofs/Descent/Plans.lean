import CSubset.Surface.Parser
import Mathlib.Logic.Function.Iterate

/-!
# Recursive descent

A reader by recursive descent is a family of routines. What a routine does is a plan: it looks at
the token in hand, takes the next one in hand, calls a routine and goes on with what that one
returns, returns itself, or stops at the token in hand. Nothing in a plan says that its calls come
to an end. A machine with a stack carries plans out step by step (`State.step`); an answer is what
is returned and the tokens that are left, or why and where a routine stops.

A contract says what each routine has to answer and how many steps a call may take: so many for each
token that is left, so many for the rank of the routine, and a fee. What a routine has not used when
it returns, its caller may use. If each plan keeps to the contract (`Contract.Covers`), then

* a routine that returns has read as many tokens as it must (`Covers.returns`);
* a call that is made before anything is read goes down in rank (`Covers.calls`);
* every run ends in time, with the answer that is expected (`Covers.run_eq`).
-/

namespace CSubset.Descent

open Surface (Cause Misfit)
open Surface.Parser (Step Tail headKind)

variable {ρ : Type} {Value : ρ → Type} {α β σ τ : Type}

/-- What a routine does. `Value r` is what the routine `r` returns. -/
inductive Plan (Value : ρ → Type) (α : Type) where
  | done (value : α)
  | stop (cause : Cause)
  | look (next : Option Token → Plan Value α)
  | advance (next : Plan Value α)
  | call (r : ρ) (next : Value r → Plan Value α)

namespace Plan

def bind : Plan Value α → (α → Plan Value β) → Plan Value β
  | .done v, k => k v
  | .stop cause, _ => .stop cause
  | .look next, k => .look fun t => (next t).bind k
  | .advance next, k => .advance (next.bind k)
  | .call r next, k => .call r fun v => (next v).bind k

instance : Monad (Plan Value) where
  pure := .done
  bind := bind

def ask (r : ρ) : Plan Value (Value r) := .call r .done

def skip : Plan Value Unit := .advance (.done ())

/-- The token in hand. The end has a token too; its position is never used. -/
def token : Plan Value Token := .look fun t => .done (t.getD ⟨.eof, "", .unknown⟩)

def kind : Plan Value TokenKind := .look fun t => .done ((t.map Token.kind).getD .eof)

def accept (wanted : TokenKind) : Plan Value Bool := do
  if (← kind) = wanted then
    skip
    return true
  else return false

def expect (wanted : TokenKind) : Plan Value Token :=
  .look fun
    | some t => if t.kind = wanted then .advance (.done t) else .stop (.expected wanted)
    | none => .stop (.expected wanted)

end Plan

/-- What a function of the parser gives, as an answer of a routine. -/
def ofStep {ts : List Token} (step : Step α ts) : α × List Token := (step.value, step.rest)

def ofTail {ts : List Token} (tail : Tail α ts) : α × List Token := (tail.value, tail.rest)

/-! ## The machine -/

/-- The callers that wait for a routine to return, the latest first, with the tokens at which each
was called. -/
inductive Stack (Value : ρ → Type) (main : ρ) : ρ → Type where
  | empty : Stack Value main main
  | push {r : ρ} (caller : ρ) (entry : List Token) (next : Value r → Plan Value (Value caller))
    (below : Stack Value main caller) : Stack Value main r

/-- A routine that was called at the tokens `entry` has a plan to carry out at the tokens `rest`, or
all is over. -/
inductive State (Value : ρ → Type) (main : ρ) where
  | running (r : ρ) (entry rest : List Token) (plan : Plan Value (Value r))
    (stack : Stack Value main r)
  | ended (answer : Except Misfit (Value main × List Token))

section Machine

variable (body : (r : ρ) → Plan Value (Value r)) {main : ρ}

def State.step : State Value main → State Value main
  | .running r entry rest (.look next) stack => .running r entry rest (next rest.head?) stack
  | .running r entry rest (.advance next) stack => .running r entry rest.tail next stack
  | .running r entry rest (.call callee next) stack =>
    .running callee rest rest (body callee) (.push r entry next stack)
  | .running _ _ rest (.stop cause) _ => .ended (.error ⟨cause, rest⟩)
  | .running _ _ rest (.done v) (.push caller entry next below) =>
    .running caller entry rest (next v) below
  | .running _ _ rest (.done v) .empty => .ended (.ok (v, rest))
  | .ended answer => .ended answer

/-- The state `n` steps after a routine was called. -/
def run (main : ρ) (source : List Token) (n : Nat) : State Value main :=
  (State.step body)^[n] (.running main source source (body main) .empty)

theorem run_succ (main : ρ) (source : List Token) (n : Nat) :
    run body main source (n + 1) = (run body main source n).step body :=
  Function.iterate_succ_apply' _ _ _

end Machine

/-! ## Contracts

The tokens that are read pay for the steps, and between two tokens the ranks do. -/

/-- What is expected of the routines. -/
structure Contract (Value : ρ → Type) where
  answer : (r : ρ) → List Token → Except Misfit (Value r × List Token)
  /-- The place of a routine among those that may call each other at the same token. -/
  rank : ρ → Nat
  /-- How many tokens a routine has read, at least, when it returns. -/
  least : ρ → Nat
  perToken : Nat
  perRank : Nat
  fee : Nat

namespace Contract

variable (c : Contract Value) {before : Nat}

/-- The steps that a routine may take from these tokens on. -/
def budget (r : ρ) (ts : List Token) : Nat := c.perToken * ts.length + c.perRank * c.rank r + c.fee

/-- What a call costs its caller, with the steps that call and return. Tokens that are read pay for
the rest. -/
def price (r : ρ) : Nat := c.perRank * c.rank r + c.fee + 2

/-- Whether a routine that has read some tokens can pay for what it has spent. -/
def allows (r : ρ) (read spent : Nat) : Bool :=
  spent ≤ c.perToken * read + c.perRank * c.rank r + c.fee

/-- Whether it can return as well: it keeps nothing for the tokens that it has to read. -/
def allowsReturn (r : ρ) (read spent : Nat) : Bool :=
  c.least r ≤ read && c.allows r read (c.perToken * c.least r + spent)

/-- The plan of the routine `r`, which has read and spent so much, gives the answer `x` and can be
paid for, if the routines that it calls keep to the contract. -/
def Follows (r : ρ) (x : Except Misfit (Value r × List Token)) :
    Nat → Nat → Plan Value (Value r) → List Token → Prop
  | read, spent, .done v, ts => x = .ok (v, ts) ∧ c.allowsReturn r read spent
  | read, spent, .stop cause, ts => x = .error ⟨cause, ts⟩ ∧ c.allows r read spent
  | read, spent, .look next, ts => Follows r x read (spent + 1) (next ts.head?) ts
  | read, spent, .advance next, ts =>
    ∃ t rest, ts = t :: rest ∧ Follows r x (read + 1) (spent + 1) next rest
  | read, spent, .call callee next, ts =>
    c.allows r read (spent + c.price callee) ∧ (∀ m, c.answer callee ts = .error m → x = .error m) ∧
      ∀ v rest, c.answer callee ts = .ok (v, rest) →
        Follows r x (read + c.least callee) (spent + c.price callee) (next v) rest

/-- All routines keep to the contract. -/
def Covers (body : (r : ρ) → Plan Value (Value r)) : Prop :=
  ∀ r ts, c.Follows r (c.answer r ts) 0 0 (body r) ts

/-- A routine that was called at `entry` and has taken some steps to `ts` has not read less or spent
more than this. -/
structure Counts (entry ts : List Token) (steps read spent : Nat) : Prop where
  suffix : ts <:+ entry
  tokens : ts.length + read ≤ entry.length
  steps : steps + c.perToken * (ts.length + read) ≤ c.perToken * entry.length + spent

/-- The callers of a routine that was called at `entry`, after `before` steps of the whole run, keep
to the contract. -/
def CoversStack (source : List Token) {main : ρ} :
    {r : ρ} → Stack Value main r → List Token → Nat → Prop
  | _, .empty, entry, before => entry = source ∧ before = 0
  | r, .push caller entry' next below, entry, before =>
    ∃ earlier steps read spent, before = earlier + steps + 1 ∧
      c.Counts entry' entry steps read spent ∧ CoversStack source below entry' earlier ∧
      c.Follows caller (c.answer caller entry') read spent (.call r next) entry

/-- After `n` steps of a run, all routines that are not over keep to the contract. -/
def CoversState (source : List Token) {main : ρ} : State Value main → Nat → Prop
  | .running r entry rest plan stack, n =>
    ∃ before steps read spent, n = before + steps ∧ c.Counts entry rest steps read spent ∧
      c.CoversStack source stack entry before ∧ c.Follows r (c.answer r entry) read spent plan rest
  | .ended answer, _ => answer = c.answer main source

variable {c} {r main callee : ρ} {entry source ts : List Token}
  {x : Except Misfit (Value r × List Token)}
  {steps read spent : Nat}

namespace Counts

theorem start (c : Contract Value) (ts : List Token) : c.Counts ts ts 0 0 0 :=
  ⟨List.suffix_refl ts, by simp, by simp⟩

theorem look (h : c.Counts entry ts steps read spent) :
    c.Counts entry ts (steps + 1) read (spent + 1) :=
  ⟨h.suffix, h.tokens, by have := h.steps; omega⟩

theorem advance {t : Token} (h : c.Counts entry (t :: ts) steps read spent) :
    c.Counts entry ts (steps + 1) (read + 1) (spent + 1) := by
  have htokens := h.tokens
  have hsteps := h.steps
  rw [List.length_cons, Nat.add_right_comm, Nat.add_assoc] at htokens hsteps
  exact ⟨(List.suffix_cons t ts).trans h.suffix, htokens, by omega⟩

/-- What is true of a routine when it returns. -/
theorem paid (h : c.Counts entry ts steps read spent) (hpaid : c.allowsReturn r read spent) :
    ts.length + c.least r ≤ entry.length ∧ steps + c.perToken * (ts.length + c.least r) ≤
      c.budget r entry := by
  obtain ⟨suffix, tokens, steps⟩ := h
  simp only [allowsReturn, allows, Bool.and_eq_true, decide_eq_true_eq, Nat.mul_add, budget]
    at hpaid steps ⊢
  omega

/-- A routine that returns, its call and its return count for its caller. -/
theorem call {rest : List Token} {cost : Nat} (h : c.Counts entry ts steps read spent)
    (hrest : rest <:+ ts)
    (hpaid : rest.length + c.least callee ≤ ts.length ∧
      cost + c.perToken * (rest.length + c.least callee) ≤ c.budget callee ts) :
    c.Counts entry rest (steps + cost + 2) (read + c.least callee) (spent + c.price callee) := by
  obtain ⟨suffix, tokens, steps⟩ := h
  simp only [Nat.mul_add, budget] at hpaid steps
  refine ⟨hrest.trans suffix, by omega, ?_⟩
  simp only [Nat.mul_add, price]
  omega

end Counts

/-- A routine can still pay for all its steps, and for those of a routine that it calls. -/
theorem Counts.budget_le (h : c.Counts entry ts steps read spent) {extra : Nat}
    (hpaid : c.allows r read (spent + extra)) :
    steps + c.perToken * ts.length + extra ≤ c.budget r entry := by
  have hsteps := h.steps
  simp only [allows, decide_eq_true_eq, Nat.mul_add, budget] at hpaid hsteps ⊢
  omega

theorem Follows.steps_le {plan : Plan Value (Value r)} (h : c.Follows r x read spent plan ts)
    (hc : c.Counts entry ts steps read spent) : steps ≤ c.budget r entry := by
  induction plan generalizing steps read spent ts with
  | done v => exact Nat.le_trans (Nat.le_add_right _ _) (hc.paid h.2).2
  | stop cause =>
    have hle : steps + c.perToken * ts.length + 0 ≤ c.budget r entry := hc.budget_le h.2
    omega
  | look next ih => exact Nat.le_of_lt (ih _ h hc.look)
  | advance next ih =>
    obtain ⟨t, rest, rfl, h⟩ := h
    exact Nat.le_of_lt (ih h hc.advance)
  | call callee next ih =>
    have hle := hc.budget_le h.1
    omega

theorem CoversStack.before_le {stack : Stack Value main r}
    (h : c.CoversStack source stack entry before) :
    before + c.budget r entry ≤ c.budget main source := by
  induction stack generalizing entry before with
  | empty =>
    obtain ⟨rfl, rfl⟩ := h
    exact Nat.le_of_eq (Nat.zero_add _)
  | push caller entry' next below ih =>
    obtain ⟨earlier, steps, read, spent, rfl, hcounts, hbelow, hcall⟩ := h
    have hearlier := ih hbelow
    have hle := hcounts.budget_le hcall.1
    simp only [price, budget] at hle hearlier ⊢
    omega

/-- Where one routine stops, all its callers do. -/
theorem CoversStack.error {stack : Stack Value main r} {m : Misfit}
    (h : c.CoversStack source stack entry before) (hm : c.answer r entry = .error m) :
    c.answer main source = .error m := by
  induction stack generalizing entry before with
  | empty => rwa [← h.1]
  | push caller entry' next below ih =>
    obtain ⟨earlier, steps, read, spent, -, -, hbelow, hcall⟩ := h
    exact ih hbelow (hcall.2.1 m hm)

namespace Covers

variable {body : (r : ρ) → Plan Value (Value r)} {n : Nat} {rest : List Token}

/-- What one step preserves. -/
theorem step (hc : c.Covers body) {s : State Value main} (h : c.CoversState source s n) :
    c.CoversState source (s.step body) (n + 1) := by
  cases s with
  | ended answer => exact h
  | running r entry rest plan stack =>
    obtain ⟨before, steps, read, spent, rfl, hcounts, hstack, hplan⟩ := h
    cases plan with
    | look next => exact ⟨before, steps + 1, read, spent + 1, rfl, hcounts.look, hstack, hplan⟩
    | advance next =>
      obtain ⟨t, rest, rfl, hplan⟩ := hplan
      exact ⟨before, steps + 1, read + 1, spent + 1, rfl, hcounts.advance, hstack, hplan⟩
    | call callee next =>
      exact ⟨before + steps + 1, 0, 0, 0, rfl, .start c rest,
        ⟨before, steps, read, spent, rfl, hcounts, hstack, hplan⟩, hc callee rest⟩
    | stop cause => exact (hstack.error hplan.1).symm
    | done v =>
      cases stack with
      | empty => exact hstack.1 ▸ hplan.1.symm
      | push caller entry' next below =>
        obtain ⟨earlier, steps', read', spent', rfl, hcounts', hbelow, hcall⟩ := hstack
        exact ⟨earlier, steps' + steps + 2, _,
          _, by omega, hcounts'.call hcounts.suffix (hcounts.paid hplan.2), hbelow,
          hcall.2.2 v rest hplan.1⟩

/-- What a whole run preserves. -/
theorem run (hc : c.Covers body) (main : ρ) (source : List Token) (n : Nat) :
    c.CoversState source (Descent.run body main source n) n := by
  induction n with
  | zero => exact ⟨0, 0, 0, 0, rfl, .start c source, ⟨rfl, rfl⟩, hc main source⟩
  | succ n ih =>
    rw [run_succ]
    exact hc.step ih

theorem returns (hc : c.Covers body) {v : Value r} {stack : Stack Value main r}
    (h : Descent.run body main source n = .running r entry rest (.done v) stack) :
    c.answer r entry = .ok (v, rest) ∧ rest <:+ entry ∧ rest.length + c.least r ≤ entry.length := by
  have hrun := hc.run main source n
  rw [h] at hrun
  obtain ⟨_, _, _, _, _, hcounts, _, hplan⟩ := hrun
  exact ⟨hplan.1, hcounts.suffix, (hcounts.paid hplan.2).1⟩

theorem calls (hc : c.Covers body) {next : Value callee → Plan Value (Value r)}
    {stack : Stack Value main r}
    (h : Descent.run body main source n = .running r entry rest (.call callee next) stack) :
    rest.length < entry.length ∨ rest = entry ∧ c.rank callee < c.rank r := by
  have hrun := hc.run main source n
  rw [h] at hrun
  obtain ⟨_, _, _, _, _, hcounts, _, hcall⟩ := hrun
  rcases Nat.lt_or_eq_of_le hcounts.suffix.length_le with hlt | heq
  · exact .inl hlt
  · obtain rfl := hcounts.suffix.eq_of_length heq
    have hprice : c.perRank * c.rank callee < c.perRank * c.rank r := by
      have hle := hcounts.budget_le hcall.1
      simp only [price, budget] at hle
      omega
    exact .inr ⟨rfl, Nat.lt_of_mul_lt_mul_left hprice⟩

theorem run_eq (hc : c.Covers body) (main : ρ) (source : List Token)
    (hn : c.budget main source < n) :
    Descent.run body main source n = .ended (c.answer main source) := by
  have hrun := hc.run main source n
  cases hstate : Descent.run body main source n with
  | ended answer =>
    rw [hstate] at hrun
    exact congrArg State.ended hrun
  | running r entry rest plan stack =>
    rw [hstate] at hrun
    obtain ⟨before, steps, read, spent, rfl, hcounts, hstack, hplan⟩ := hrun
    have hbefore := hstack.before_le
    have hsteps := hplan.steps_le hcounts
    omega

end Covers

/-! ## Sequences -/

namespace Follows

variable {wanted : TokenKind} {h : τ → Value r × List Token} {t : Token}

theorem done {v : Value r} (hx : x = .ok (v, ts)) (hpaid : c.allowsReturn r read spent = true) :
    c.Follows r x read spent (.done v) ts :=
  ⟨hx, hpaid⟩

theorem stop {cause : Cause} (hx : x = .error ⟨cause, ts⟩) (hpaid : c.allows r read spent = true) :
    c.Follows r x read spent (.stop cause) ts :=
  ⟨hx, hpaid⟩

theorem look {next : Option Token → Plan Value (Value r)}
    (hnext : c.Follows r x read (spent + 1) (next ts.head?) ts) :
    c.Follows r x read spent (.look next) ts :=
  hnext

theorem token {next : Token → Plan Value (Value r)}
    (hnext : c.Follows r x read (spent + 1) (next t) (t :: ts)) :
    c.Follows r x read spent (.token >>= next) (t :: ts) := hnext

theorem kind {next : TokenKind → Plan Value (Value r)}
    (hnext : c.Follows r x read (spent + 1) (next (headKind ts)) ts) :
    c.Follows r x read spent (.kind >>= next) ts := by
  cases ts <;> exact hnext

theorem advance {next : Plan Value (Value r)}
    (hnext : c.Follows r x (read + 1) (spent + 1) next ts) :
    c.Follows r x read spent (.advance next) (t :: ts) :=
  ⟨t, ts, rfl, hnext⟩

theorem skip {next : Unit → Plan Value (Value r)}
    (hnext : c.Follows r x (read + 1) (spent + 1) (next ()) ts) :
    c.Follows r x read spent (.skip >>= next) (t :: ts) :=
  .advance hnext

theorem ite {y y' : Except Misfit τ} {p p' : Plan Value (Value r)}
    (hpos : headKind ts = wanted → c.Follows r (h <$> y) read (spent + 1) p ts)
    (hneg : c.Follows r (h <$> y') read (spent + 1) p' ts) :
    c.Follows r (h <$> if headKind ts = wanted then y else y') read spent
      (.kind >>= fun k => if k = wanted then p else p') ts := by
  refine .kind ?_
  split
  next hkind => exact hpos hkind
  next => exact hneg

theorem accept (hwanted : wanted ≠ .eof) {next : Bool → Plan Value (Value r)}
    (hnext : ∀ b rest hle, Surface.Parser.accept wanted ts = ⟨b, rest, hle⟩ →
      c.Follows r x (read + b.toNat) (spent + b.toNat + 1) (next b) rest) :
    c.Follows r x read spent (.accept wanted >>= next) ts := by
  show c.Follows r x read spent (.kind >>= fun k => Plan.bind (if k = wanted then _ else _) next) ts
  refine .kind ?_
  cases ts with
  | nil =>
    rw [headKind, if_neg hwanted.symm]
    exact hnext false [] _ rfl
  | cons t rest =>
    rw [headKind]
    simp only [Surface.Parser.accept] at hnext
    split
    next ht => exact .advance (hnext true rest _ (if_pos ht))
    next ht => exact hnext false (t :: rest) _ (if_neg ht)

theorem expect {k : Step Token ts → Except Misfit τ} {next : Token → Plan Value (Value r)}
    (hpaid : c.allows r read (spent + 1) = true)
    (hnext : ∀ t rest hlt, c.Follows r (h <$> k ⟨t, rest, hlt⟩) (read + 1) (spent + 2)
      (next t) rest) :
    c.Follows r (h <$> (Surface.Parser.expect wanted ts >>= k)) read spent
      (.expect wanted >>= next) ts := by
  cases ts with
  | nil => exact ⟨rfl, hpaid⟩
  | cons t rest =>
    show c.Follows r _ _ _ (Plan.bind (if t.kind = wanted then _ else _) next) _
    simp only [Surface.Parser.expect]
    split
    next => exact .advance (hnext t rest (by simp))
    next => exact ⟨rfl, hpaid⟩

variable {next : Value callee → Plan Value (Value r)}

/-- A call that fails. -/
theorem error {m : Misfit} (hm : c.answer callee ts = .error m)
    (hpaid : c.allows r read (spent + c.price callee) = true) :
    c.Follows r (.error m) read spent (.ask callee >>= next) ts :=
  ⟨hpaid, fun _ hm' => congrArg Except.error (Except.error.inj (hm.symm.trans hm')),
    fun _ _ hok => nomatch hm.symm.trans hok⟩

/-- What a call returns goes into what follows. -/
theorem call {y : Except Misfit σ} {g : σ → Value callee × List Token} {k : σ → Except Misfit τ}
    (hy : c.answer callee ts = g <$> y) (hpaid : c.allows r read (spent + c.price callee) = true)
    (hnext : ∀ s, c.Follows r (h <$> k s) (read + c.least callee) (spent + c.price callee)
      (next (g s).1) (g s).2) :
    c.Follows r (h <$> (y >>= k)) read spent (.ask callee >>= next) ts := by
  cases y with
  | error m => exact .error hy hpaid
  | ok s =>
    refine ⟨hpaid, fun m hm => (nomatch hy.symm.trans hm), fun v rest hok => ?_⟩
    obtain ⟨rfl, rfl⟩ := Prod.mk.inj (Except.ok.inj (hy.symm.trans hok))
    exact hnext s

theorem step {y : Except Misfit (Step (Value callee) ts)}
    {k : Step (Value callee) ts → Except Misfit τ} (hy : c.answer callee ts = ofStep <$> y)
    (hpaid : c.allows r read (spent + c.price callee) = true)
    (hnext : ∀ v rest hlt, c.Follows r (h <$> k ⟨v, rest, hlt⟩) (read + c.least callee)
      (spent + c.price callee) (next v) rest) :
    c.Follows r (h <$> (y >>= k)) read spent (.ask callee >>= next) ts :=
  .call hy hpaid fun step => hnext step.value step.rest step.shorter

end Follows

end Contract

end CSubset.Descent
