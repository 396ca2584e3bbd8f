import CSubset.Proofs.Surface.Phrases

/-!
# The parser reads phrases

The parser reads a list of tokens as a program exactly if the tokens spell it:
`externals_eq_ok_iff`. From there on nothing has to be known of the parser; what is read is
described by the cases of `Phrase`.

* What is read from the front of a list of tokens is a phrase (`Finds`), one lemma for each function
  of the parser.
* A phrase is read as what it spells, whatever follows it, as long as the next token cannot be part
  of it (`Gets`). An operand ends in front of anything but a parenthesis, a chain also not in front
  of an operator, an assignment also not in front of an equals sign, and a statement that ends open
  not in front of an `else`.
-/

namespace CSubset.Surface

namespace Parser

open Phrase

variable {ts rest : List Token} {kind : TokenKind} {t : Token} {d : Declarator} {es : List External}
  {ps : List Param}

/-! ## What is read is a phrase

Each routine takes tokens from the front, and these are a phrase that spells what it returns. -/

section Ensures

variable {ε α β : Type} {P : α → Prop} {Q : β → Prop}

/-- If something is read, it satisfies `P`. -/
def Ensures (P : α → Prop) (x : Except ε α) : Prop := ∀ a, x = .ok a → P a

theorem Ensures.ok {a : α} (h : P a) : Ensures P (.ok a : Except ε α) := by
  rintro _ ⟨⟩
  exact h

theorem Ensures.fail {cause : Cause} {input : List Token} : Ensures P (fail cause input) := nofun

/-- What the first step ensures, the second may use. -/
theorem Ensures.bind {x : Except ε α} {k : α → Except ε β} (hx : Ensures P x)
    (hk : ∀ a, P a → Ensures Q (k a)) : Ensures Q (x >>= k) := by
  cases x with
  | error e => nofun
  | ok a => exact hk a (hx a rfl)

end Ensures

variable {α β : Type} {input : List Token}

/-- What is read is spelled by the tokens in front of those that are left. -/
def Finds (R : List Token → α → Prop) (x : Parsed α input) : Prop :=
  Ensures (fun step => ∃ ts, input = ts ++ step.rest ∧ R ts step.value) x

/-- As `Finds`, where nothing may have been read. -/
def FindsTail (R : List Token → α → Prop) (x : ParsedTail α input) : Prop :=
  Ensures (fun tail => ∃ ts, input = ts ++ tail.rest ∧ R ts tail.value) x

theorem Finds.bind {Q : β → Prop} {R : List Token → α → Prop} {x : Parsed α input}
    {k : Step α input → Except Misfit β} (hx : Finds R x)
    (hk : ∀ value ts rest hlt, input = ts ++ rest → R ts value → Ensures Q (k ⟨value, rest, hlt⟩)) :
    Ensures Q (x >>= k) :=
  Ensures.bind hx fun ⟨value, rest, hlt⟩ ⟨ts, hinput, hvalue⟩ => hk value ts rest hlt hinput hvalue

theorem FindsTail.bind {Q : β → Prop} {R : List Token → α → Prop} {x : ParsedTail α input}
    {k : Tail α input → Except Misfit β} (hx : FindsTail R x)
    (hk : ∀ value ts rest hle, input = ts ++ rest → R ts value → Ensures Q (k ⟨value, rest, hle⟩)) :
    Ensures Q (x >>= k) :=
  Ensures.bind hx fun ⟨value, rest, hle⟩ ⟨ts, hinput, hvalue⟩ => hk value ts rest hle hinput hvalue

theorem ensures_expect_bind {Q : β → Prop} {k : Step Token input → Except Misfit β}
    (hk : ∀ t rest hlt, input = t :: rest → t.kind = kind → Ensures Q (k ⟨t, rest, hlt⟩)) :
    Ensures Q (expect kind input >>= k) := by
  have hexpect : Ensures (fun step => input = step.value :: step.rest ∧ step.value.kind = kind)
      (expect kind input) := by
    unfold expect
    split
    · exact .fail
    · split
      next hkind => exact .ok ⟨rfl, hkind⟩
      next => exact .fail
  refine hexpect.bind fun step hstep => ?_
  obtain ⟨t, rest, hlt⟩ := step
  exact hk t rest hlt hstep.1 hstep.2

theorem accept_const (input : List Token) :
    ∃ ts, input = ts ++ (accept .kwConst input).rest ∧
      Qualifier ts (accept .kwConst input).value := by
  cases input with
  | nil => exact ⟨[], rfl, .absent⟩
  | cons t rest =>
    unfold accept
    by_cases ht : t.kind = .kwConst
    · simp only [if_pos ht]
      exact ⟨[t], rfl, .const ht⟩
    · simp only [if_neg ht]
      exact ⟨[], rfl, .absent⟩

theorem finds_typeSpec (input : List Token) : Finds TypeName (typeSpec input) := by
  unfold typeSpec
  split
  · exact .fail
  · next start afterStart =>
    obtain ⟨before, hbefore, hleading⟩ := accept_const (start :: afterStart)
    generalize accept .kwConst (start :: afterStart) = leading at hbefore hleading ⊢
    obtain ⟨leading, r, _⟩ := leading
    dsimp only at hbefore hleading ⊢
    split
    · exact .fail
    · next t r _ =>
      split
      · exact .fail
      · next tag htag =>
        obtain ⟨after, hafter, htrailing⟩ := accept_const r
        generalize accept .kwConst r = trailing at hafter htrailing ⊢
        obtain ⟨trailing, r₁, _⟩ := trailing
        refine .ok ⟨before ++ t :: after, ?_, ?_⟩
        · show start :: afterStart = before ++ t :: after ++ r₁
          rw [hbefore, show r = after ++ r₁ from hafter, List.append_assoc, List.cons_append]
        · -- the position is that of the first token, which is the qualifier if there is one
          have hstart : start = before.head?.getD t := by
            cases hleading <;> simp_all
          rw [hstart]
          exact .mk hleading htag htrailing

/-- Stars are counted from the ones read before. -/
theorem finds_declaratorFrom (start : Option Pos) (stars : Nat) (input : List Token) :
    Finds (fun ts d => ∃ ss t, ts = ss ++ [t] ∧ (∀ s ∈ ss, s.kind = .star) ∧ t.kind = .identifier ∧
      d = ⟨start.getD (ss.head?.getD t).pos, stars + ss.length, t.pos, t.text⟩)
        (declaratorFrom start stars input) := by
  induction input generalizing start stars with
  | nil => exact .fail
  | cons u rest ih =>
    rw [declaratorFrom]
    split
    next hstar =>
      refine (ih _ _).bind fun d ts r hlt hrest hd => ?_
      obtain ⟨ss, t, rfl, hss, ht, rfl⟩ := hd
      refine .ok ⟨u :: (ss ++ [t]), by simp [hrest], u :: ss, t, rfl, ?_, ht, ?_⟩
      · exact List.forall_mem_cons.mpr ⟨hstar, hss⟩
      · cases start <;> simp <;> omega
    next =>
      split
      next hident =>
        exact .ok ⟨[u], rfl, [], u, rfl, fun _ hs => absurd hs List.not_mem_nil, hident, rfl⟩
      next => exact .fail

theorem finds_declarator (input : List Token) : Finds Declared (declarator input) := by
  intro step hstep
  obtain ⟨ts, hts, ss, t, rfl, hss, ht, hd⟩ := finds_declaratorFrom none 0 input step hstep
  refine ⟨_, hts, ?_⟩
  rw [hd, Nat.zero_add]
  exact .mk hss ht

/-! ### Expressions -/

-- As in the parser, each function calls the others on fewer tokens, or a tighter one on the same
-- tokens.
mutual

/-- All routines for expressions at once, by their recursion. -/
theorem finds_assignment (input : List Token) : Finds Assignment (assignment input) := by
  rw [assignment]
  refine (finds_chain input).bind fun target ts r hlt hinput htarget => ?_
  dsimp only
  split
  · refine ensures_expect_bind fun t r₁ hlt₁ hr ht => ?_
    refine (finds_assignment r₁).bind fun value ts' r₂ hlt₂ hr₁ hvalue => ?_
    exact .ok ⟨ts ++ t :: ts', by simp [hinput, hr, hr₁], .assign htarget ht hvalue⟩
  · exact .ok ⟨ts, hinput, .value htarget⟩
termination_by (input.length, 4)

theorem finds_chain (input : List Token) : Finds Chain (chain input) := by
  rw [chain]
  refine (finds_unary input).bind fun first ts r hlt hinput hfirst => ?_
  refine (finds_linksFrom r).bind fun links ts' r₁ hle hr hlinks => ?_
  exact .ok ⟨ts ++ ts', by simp [hinput, hr], .mk hfirst hlinks⟩
termination_by (input.length, 3)

theorem finds_linksFrom (input : List Token) : FindsTail Links (linksFrom input) := by
  rw [linksFrom.eq_def]
  cases input with
  | nil => exact .ok ⟨[], rfl, .nil⟩
  | cons t rest =>
    dsimp only
    split
    next => exact .ok ⟨[], rfl, .nil⟩
    next op hop =>
      refine (finds_unary rest).bind fun operand ts r hlt hrest hoperand => ?_
      refine (finds_linksFrom r).bind fun links ts' r₁ hle hr hlinks => ?_
      exact .ok ⟨t :: (ts ++ ts'), by simp [hrest, hr], .cons hop hoperand hlinks⟩
termination_by (input.length, 2)

theorem finds_unary (input : List Token) : Finds Unary (unary input) := by
  rw [unary.eq_def]
  cases input with
  | nil => exact .fail
  | cons t rest =>
    dsimp only
    split
    next ht =>
      refine (finds_unary rest).bind fun e ts r hlt hrest he => ?_
      exact .ok ⟨t :: ts, by simp [hrest], .plus ht he⟩
    next =>
      split
      next ht =>
        split
        next hinteger =>
          refine ensures_expect_bind fun n r hlt hrest hn => ?_
          dsimp only
          split
          next value hvalue => exact .ok ⟨[t, n], by simp [hrest], .negative ht hn hvalue⟩
          next => exact .fail
        next hinteger =>
          refine (finds_unary rest).bind fun e ts r hlt hrest he => ?_
          refine .ok ⟨t :: ts, by simp [hrest], .minus ht (fun hts => hinteger ?_) he⟩
          -- the first token of the operand is the first of all
          rw [hrest]
          cases ts with
          | nil => cases hts
          | cons _ _ => exact hts
      next =>
        exact fun step hstep => (finds_primary (t :: rest) step hstep).imp fun _ h =>
          ⟨h.1, .primary h.2⟩
termination_by (input.length, 1)

theorem finds_primary (input : List Token) : Finds Primary (primary input) := by
  rw [primary.eq_def]
  cases input with
  | nil => exact .fail
  | cons t rest =>
    dsimp only
    split
    next ht =>
      split
      next value hvalue => exact .ok ⟨[t], rfl, .integer ht hvalue⟩
      next => exact .fail
    next ht =>
      split
      next c hc => exact .ok ⟨[t], rfl, .character ht hc⟩
      next => exact .fail
    next ht => exact .ok ⟨[t], rfl, .string ht⟩
    next ht =>
      split
      next p a rest =>
        split
        next hp =>
          refine (finds_arguments (a :: rest)).bind fun args ts r hlt hrest hargs => ?_
          -- there is a first token behind the parenthesis, at the latest the closing one
          obtain ⟨a', ts, rfl⟩ := List.exists_cons_of_ne_nil hargs.ne_nil
          obtain ⟨rfl, rfl⟩ := List.cons.inj hrest
          exact .ok ⟨t :: p :: a :: ts, rfl, .call ht hp hargs⟩
        next => exact .ok ⟨[t], rfl, .name ht⟩
      next p =>
        split
        next => exact .fail
        next => exact .ok ⟨[t], rfl, .name ht⟩
      next => exact .ok ⟨[t], rfl, .name ht⟩
    next hp =>
      refine (finds_assignment rest).bind fun e ts r hlt hrest he => ?_
      dsimp only
      refine ensures_expect_bind fun q r₁ hlt₁ hr hq => ?_
      exact .ok ⟨t :: (ts ++ [q]), by simp [hrest, hr], .paren hp he hq⟩
    next => exact .fail
termination_by (input.length, 0)

theorem finds_arguments (input : List Token) : Finds Arguments (arguments input) := by
  rw [arguments]
  split
  · refine ensures_expect_bind fun q r hlt hinput hq => ?_
    exact .ok ⟨[q], hinput, .none hq⟩
  · refine (finds_assignment input).bind fun e ts r hlt hinput he => ?_
    dsimp only
    split
    · refine ensures_expect_bind fun c r₁ hlt₁ hr hc => ?_
      refine (finds_arguments r₁).bind fun es ts' r₂ hlt₂ hr₁ hes => ?_
      exact .ok ⟨ts ++ c :: ts', by simp [hinput, hr, hr₁], .more he hc hes⟩
    · refine ensures_expect_bind fun q r₁ hlt₁ hr hq => ?_
      exact .ok ⟨ts ++ [q], by simp [hinput, hr], .last he hq⟩
termination_by (input.length, 5)

end

/-! ### Variables and statements -/

theorem finds_initializer (input : List Token) : FindsTail Initialized (initializer input) := by
  unfold initializer
  split
  · exact .ok ⟨[], rfl, .absent⟩
  · next t rest =>
    split
    next ht =>
      refine (finds_assignment rest).bind fun value ts r _ hrest hvalue => ?_
      exact .ok ⟨t :: ts, by simp [hrest], .value ht hvalue⟩
    next => exact .ok ⟨[], rfl, .absent⟩

theorem finds_variablesFrom (d : Declarator) (input : List Token) :
    Finds (Variables d) (variablesFrom d input) := by
  rw [variablesFrom]
  refine (finds_initializer input).bind fun init ts r hle hinput hinit => ?_
  dsimp only
  split
  · refine ensures_expect_bind fun c r₁ hlt₁ hr hc => ?_
    refine (finds_declarator r₁).bind fun next ns r₂ hlt₂ hr₁ hnext => ?_
    refine (finds_variablesFrom next r₂).bind fun found ts' r₃ hlt₃ hr₂ hmore => ?_
    obtain ⟨second, more⟩ := found
    exact .ok ⟨ts ++ c :: (ns ++ ts'), by simp [hinput, hr, hr₁, hr₂], .more hinit hc hnext hmore⟩
  · refine ensures_expect_bind fun s r₁ hlt₁ hr hs => ?_
    exact .ok ⟨ts ++ [s], by simp [hinput, hr], .last hinit hs⟩
termination_by input.length

theorem finds_varDecl (input : List Token) : Finds Declaration (varDecl input) := by
  unfold varDecl
  refine (finds_typeSpec input).bind fun type ts r _ hinput htype => ?_
  refine (finds_declarator r).bind fun d ns r₁ _ hr hname => ?_
  refine (finds_variablesFrom d r₁).bind fun ⟨first, more⟩ vs r₂ _ hr₁ hvars => ?_
  exact .ok ⟨ts ++ (ns ++ vs), by simp [hinput, hr, hr₁], .mk htype hname hvars⟩

theorem finds_condition (input : List Token) : Finds Condition (condition input) := by
  unfold condition
  refine ensures_expect_bind fun p r _ hinput hp => ?_
  refine (finds_assignment r).bind fun cond ts r₁ _ hr hcond => ?_
  refine ensures_expect_bind fun q r₂ _ hr₁ hq => ?_
  exact .ok ⟨p :: (ts ++ [q]), by simp [hinput, hr, hr₁], .mk hp hcond hq⟩

theorem finds_returnValue (input : List Token) : Finds Returned (returnValue input) := by
  unfold returnValue
  split
  · refine ensures_expect_bind fun s r _ hinput hs => ?_
    exact .ok ⟨[s], hinput, .nothing hs⟩
  · refine (finds_assignment input).bind fun e ts r _ hinput he => ?_
    refine ensures_expect_bind fun s r₁ _ hr hs => ?_
    exact .ok ⟨ts ++ [s], by simp [hinput, hr], .value he hs⟩

/-- What is read is a statement, with its `else` if there is one. -/
def FindsStatement (x : Parsed Stmt input) : Prop :=
  Ensures (fun step => ∃ ts, input = ts ++ step.rest ∧ Statement ts step.value ∧
    (step.value.endsOpen = true → headKind step.rest ≠ .kwElse)) x

theorem FindsStatement.bind {Q : β → Prop} {x : Parsed Stmt input}
    {k : Step Stmt input → Except Misfit β} (hx : FindsStatement x)
    (hk : ∀ stmt ts rest hlt, input = ts ++ rest → Statement ts stmt →
      (stmt.endsOpen = true → headKind rest ≠ .kwElse) → Ensures Q (k ⟨stmt, rest, hlt⟩)) :
    Ensures Q (x >>= k) :=
  Ensures.bind hx fun ⟨stmt, rest, hlt⟩ ⟨ts, hinput, hstmt, hopen⟩ => hk stmt ts rest hlt
    hinput hstmt hopen

mutual

/-- A statement that ends without an `else` is followed by none, since that would have been read. -/
theorem finds_statement (input : List Token) : FindsStatement (statement input) := by
  rw [statement.eq_def]
  cases input with
  | nil => exact .fail
  | cons t rest =>
    dsimp only
    split
    next ht =>
      refine (finds_returnValue rest).bind fun value ts r hlt hrest hvalue => ?_
      exact .ok ⟨t :: ts, by simp [hrest], .ret ht hvalue, nofun⟩
    next ht =>
      refine (finds_condition rest).bind fun cond cs r hlt hrest hcond => ?_
      refine (finds_statement r).bind fun thenBody bs r₁ hlt₁ hr hthen hopen => ?_
      dsimp only
      split
      next helse =>
        refine ensures_expect_bind fun l r₂ hlt₂ hr₁ hl => ?_
        refine (finds_statement r₂).bind fun elseBody bs' r₃ hlt₃ hr₂ helseBody hopen' => ?_
        -- an `else` follows, so the first branch is one that cannot take it
        have hclosed : thenBody.endsOpen = false := by
          cases h : thenBody.endsOpen with
          | false => rfl
          | true => exact absurd helse (hopen h)
        exact .ok ⟨t :: (cs ++ (bs ++ l :: bs')), by simp [hrest, hr, hr₁, hr₂],
          .ifThenElse ht hcond hthen hclosed hl helseBody, hopen'⟩
      next helse =>
        exact .ok ⟨t :: (cs ++ bs), by simp [hrest, hr], .ifThen ht hcond hthen, fun _ => helse⟩
    next ht =>
      refine (finds_condition rest).bind fun cond cs r hlt hrest hcond => ?_
      refine (finds_statement r).bind fun body bs r₁ hlt₁ hr hbody hopen => ?_
      exact .ok ⟨t :: (cs ++ bs), by simp [hrest, hr], .while ht hcond hbody, hopen⟩
    next ht =>
      refine (finds_statementsFrom rest).bind fun stmts ts r hlt hrest hstmts => ?_
      exact .ok ⟨t :: ts, by simp [hrest], .block ht hstmts, nofun⟩
    next ht => exact .ok ⟨[t], rfl, .empty ht, nofun⟩
    next =>
      split
      · refine (finds_varDecl (t :: rest)).bind fun decl ts r hlt hinput hdecl => ?_
        exact .ok ⟨ts, hinput, .vars hdecl, nofun⟩
      · refine (finds_assignment (t :: rest)).bind fun e ts r hlt hinput he => ?_
        dsimp only
        refine ensures_expect_bind fun s r₁ hlt₁ hr hs => ?_
        obtain ⟨t', ts, rfl⟩ := List.exists_cons_of_ne_nil he.ne_nil
        obtain ⟨rfl, rfl⟩ := List.cons.inj hinput
        exact .ok ⟨t :: (ts ++ [s]), by simp [hr], .expr he hs, nofun⟩
termination_by (input.length, 0)

theorem finds_statementsFrom (input : List Token) : Finds Statements (statementsFrom input) := by
  rw [statementsFrom]
  split
  · refine ensures_expect_bind fun q r hlt hinput hq => ?_
    exact .ok ⟨[q], hinput, .nil hq⟩
  · refine (finds_statement input).bind fun stmt ts r hlt hinput hstmt _ => ?_
    refine (finds_statementsFrom r).bind fun stmts ts' r₁ hlt₁ hr hstmts => ?_
    exact .ok ⟨ts ++ ts', by simp [hinput, hr], .cons hstmt hstmts⟩
termination_by (input.length, 1)

end

/-! ### External declarations -/

theorem finds_param (input : List Token) : Finds Parameter (param input) := by
  unfold param
  refine (finds_typeSpec input).bind fun type ts r _ hinput htype => ?_
  refine (finds_declarator r).bind fun d ns r₁ _ hr hname => ?_
  exact .ok ⟨ts ++ ns, by simp [hinput, hr], .mk htype hname⟩

theorem finds_paramsFrom (input : List Token) : Finds ParameterList (paramsFrom input) := by
  rw [paramsFrom]
  refine (finds_param input).bind fun p ts r hlt hinput hp => ?_
  dsimp only
  split
  · refine ensures_expect_bind fun c r₁ hlt₁ hr hc => ?_
    refine (finds_paramsFrom r₁).bind fun ps ts' r₂ hlt₂ hr₁ hps => ?_
    exact .ok ⟨ts ++ c :: ts', by simp [hinput, hr, hr₁], .more hp hc hps⟩
  · exact .ok ⟨ts, hinput, .last hp⟩
termination_by input.length

theorem finds_params (input : List Token) : Finds Parameters (params input) := by
  unfold params
  split
  next =>
    refine ensures_expect_bind fun q r _ hinput hq => ?_
    exact .ok ⟨[q], hinput, .none hq⟩
  next =>
    refine ensures_expect_bind fun v r _ hinput hv => ?_
    dsimp only
    split
    · refine ensures_expect_bind fun q r₁ _ hr hq => ?_
      exact .ok ⟨[v, q], by simp [hinput, hr], .void hv hq⟩
    · exact .fail
  next _ hvoid =>
    refine (finds_paramsFrom input).bind fun ps ts r _ hinput hps => ?_
    dsimp only
    refine ensures_expect_bind fun q r₁ _ hr hq => ?_
    refine .ok ⟨ts ++ [q], by simp [hinput, hr], .some hps (fun hhead => hvoid ?_) hq⟩
    -- the first token of the list is the first of all
    rw [hinput]
    cases ts with
    | nil => cases hhead
    | cons _ _ => exact hhead

/-- What follows the opening parenthesis makes a function of a type and a name. -/
theorem finds_functionFrom (type : TypeSpec) (d : Declarator) (input : List Token) :
    Finds (fun ts e => ∀ us ns p, TypeName us type → Declared ns d → p.kind = .leftParen →
      Member (us ++ (ns ++ p :: ts)) e) (functionFrom type d input) := by
  unfold functionFrom
  split
  · exact .fail
  · next start rest =>
    refine (finds_params (start :: rest)).bind fun ps ts r _ hinput hps => ?_
    obtain ⟨a, ts, rfl⟩ := List.exists_cons_of_ne_nil hps.ne_nil
    obtain ⟨rfl, rfl⟩ := List.cons.inj hinput
    dsimp only
    split
    · refine ensures_expect_bind fun s r₁ _ hr hs => ?_
      refine .ok ⟨start :: (ts ++ [s]), by simp [hr], fun us ns p htype hname hp => ?_⟩
      exact .prototype htype hname hp hps hs
    · unfold block
      refine Ensures.bind (P := fun step => ∃ b bs, r = b :: (bs ++ step.rest) ∧
        b.kind = .leftBrace ∧ step.value.pos = b.pos ∧ Statements bs step.value.stmts) ?_ ?_
      · refine ensures_expect_bind fun b r₁ _ hr hb => ?_
        refine (finds_statementsFrom r₁).bind fun stmts bs r₂ _ hr₁ hstmts => ?_
        exact .ok ⟨b, bs, by simp [hr, hr₁], hb, rfl, hstmts⟩
      · rintro ⟨⟨_, stmts⟩, r₁, _⟩ ⟨b, bs, hr, hb, rfl, hstmts⟩
        refine .ok ⟨start :: (ts ++ b :: bs), by simp [hr], fun us ns p htype hname hp => ?_⟩
        exact .definition htype hname hp hps hb hstmts

theorem finds_external (input : List Token) : Finds Member (external input) := by
  unfold external
  refine (finds_typeSpec input).bind fun type ts r _ hinput htype => ?_
  refine (finds_declarator r).bind fun d ns r₁ _ hr hname => ?_
  dsimp only
  split
  · refine ensures_expect_bind fun p r₂ _ hr₁ hp => ?_
    refine (finds_functionFrom type d r₂).bind fun e us r₃ _ hr₂ he => ?_
    exact .ok ⟨ts ++ (ns ++ p :: us), by simp [hinput, hr, hr₁, hr₂], he ts ns p htype hname hp⟩
  · refine (finds_variablesFrom d r₁).bind fun ⟨first, more⟩ vs r₂ _ hr₁ hvars => ?_
    exact .ok ⟨ts ++ (ns ++ vs), by simp [hinput, hr, hr₁], .vars (.mk htype hname hvars)⟩

/-- If a program is read, all its tokens are. -/
theorem finds_externals (input : List Token) : Ensures (Members input) (externals input) := by
  rw [externals]
  split
  next hnil =>
    rw [List.isEmpty_iff.mp hnil]
    exact .ok .nil
  next =>
    refine (finds_external input).bind fun e ts r hlt hinput he => ?_
    refine (finds_externals r).bind fun es hes => .ok ?_
    rw [hinput]
    exact .cons he hes
termination_by input.length

/-! ## A phrase is read as what it spells

The other direction: on the tokens of a phrase a routine does not fail, and it stops where the
phrase ends. -/

/-- The step reads `a` and leaves `rest`. -/
def Gets (x : Parsed α input) (a : α) (rest : List Token) : Prop := ∃ hlt, x = .ok ⟨a, rest, hlt⟩

/-- As `Gets`, where nothing may have been read. -/
def GetsTail (x : ParsedTail α input) (a : α) (rest : List Token) : Prop :=
  ∃ hle, x = .ok ⟨a, rest, hle⟩

section Gets

variable {input' : List Token} {a : α} {b : β} {r r' : List Token}

theorem Gets.bind {x : Parsed α input} {k : Step α input → Parsed β input'} (hx : Gets x a r)
    (hk : ∀ hlt, Gets (k ⟨a, r, hlt⟩) b r') : Gets (x >>= k) b r' := by
  obtain ⟨hlt, rfl⟩ := hx
  exact hk hlt

theorem Gets.bindTail {x : Parsed α input} {k : Step α input → ParsedTail β input'}
    (hx : Gets x a r) (hk : ∀ hlt, GetsTail (k ⟨a, r, hlt⟩) b r') : GetsTail (x >>= k) b r' := by
  obtain ⟨hlt, rfl⟩ := hx
  exact hk hlt

theorem GetsTail.bind {x : ParsedTail α input} {k : Tail α input → Parsed β input'}
    (hx : GetsTail x a r) (hk : ∀ hle, Gets (k ⟨a, r, hle⟩) b r') : Gets (x >>= k) b r' := by
  obtain ⟨hle, rfl⟩ := hx
  exact hk hle

theorem GetsTail.bindTail {x : ParsedTail α input} {k : Tail α input → ParsedTail β input'}
    (hx : GetsTail x a r) (hk : ∀ hle, GetsTail (k ⟨a, r, hle⟩) b r') :
    GetsTail (x >>= k) b r' := by
  obtain ⟨hle, rfl⟩ := hx
  exact hk hle

end Gets

theorem gets_expect (ht : t.kind = kind) (rest : List Token) :
    Gets (expect kind (t :: rest)) t rest := by
  unfold expect
  simp only [if_pos ht]
  exact ⟨_, rfl⟩

theorem accept_qualifier {found : Bool} (h : Qualifier ts found)
    (hrest : headKind rest ≠ .kwConst) :
    (accept .kwConst (ts ++ rest)).value = found ∧ (accept .kwConst (ts ++ rest)).rest = rest := by
  cases h with
  | const ht => simp [accept, ht]
  | absent =>
    cases rest with
    | nil => exact ⟨rfl, rfl⟩
    | cons t rest => simp [accept, show t.kind ≠ .kwConst from hrest]

/-- A type ends in front of anything but another qualifier. -/
theorem gets_typeSpec {type : TypeSpec} (h : TypeName ts type)
    (hrest : headKind rest ≠ .kwConst) : Gets (typeSpec (ts ++ rest)) type rest := by
  cases h with
  | @mk before after leading trailing t tag hbefore ht hafter =>
    have hconst : headKind (t :: (after ++ rest)) ≠ .kwConst := by
      intro h
      rw [show t.kind = .kwConst from h] at ht
      cases ht
    have hleading := accept_qualifier hbefore hconst
    have htrailing := accept_qualifier hafter hrest
    have hstart : (before ++ t :: (after ++ rest)).head? = some (before.head?.getD t) := by
      cases hbefore <;> rfl
    rw [List.append_assoc, List.cons_append]
    generalize before ++ t :: (after ++ rest) = input at hleading hstart ⊢
    unfold typeSpec
    split
    next => cases hstart
    next start afterStart =>
      obtain rfl := Option.some.inj hstart
      generalize accept .kwConst _ = read at hleading ⊢
      obtain ⟨_, _, _⟩ := read
      obtain ⟨rfl, rfl⟩ := hleading
      simp only [ht]
      generalize accept .kwConst (after ++ rest) = read at htrailing ⊢
      obtain ⟨_, r, _⟩ := read
      obtain ⟨rfl, hr⟩ := htrailing
      obtain rfl : r = rest := hr
      exact ⟨_, rfl⟩

/-- Stars are counted from the ones read before. -/
theorem gets_declaratorFrom {stars : List Token} (hstars : ∀ s ∈ stars, s.kind = .star)
    (ht : t.kind = .identifier) (start : Option Pos) (count : Nat) (rest : List Token) :
    Gets (declaratorFrom start count (stars ++ t :: rest))
      ⟨start.getD (stars.head?.getD t).pos, count + stars.length, t.pos, t.text⟩ rest := by
  induction stars generalizing start count with
  | nil =>
    rw [List.nil_append, declaratorFrom]
    simp only [ht, reduceCtorEq, if_false, if_true]
    exact ⟨_, rfl⟩
  | cons s stars ih =>
    obtain ⟨hs, hstars⟩ := List.forall_mem_cons.mp hstars
    rw [List.cons_append, declaratorFrom, if_pos hs]
    refine (ih hstars (some (start.getD s.pos)) (count + 1)).bind fun _ => ?_
    have hcount : count + (s :: stars).length = count + 1 + stars.length := by simp; omega
    rw [hcount]
    exact ⟨_, rfl⟩

theorem gets_declarator (h : Declared ts d) (rest : List Token) :
    Gets (declarator (ts ++ rest)) d rest := by
  cases h with
  | @mk stars t hstars ht =>
    have hread := gets_declaratorFrom hstars ht none 0 rest
    rw [Nat.zero_add] at hread
    rw [List.append_assoc]
    exact hread

/-! ### Expressions -/

/-- What may follow an expression that is complete. -/
def ClosesExpr (kind : TokenKind) : Prop := kind = .rightParen ∨ kind = .comma ∨ kind = .semicolon

theorem ClosesExpr.ends (h : ClosesExpr kind) :
    kind ≠ .leftParen ∧ kind.operator? = none ∧ kind ≠ .assign := by
  rcases h with rfl | rfl | rfl <;> decide

mutual

/-- All phrases for expressions at once, by induction on the phrase. Behind it the reader has to
stop, so what follows closes an expression. -/
theorem gets_assignment {ts : List Token} {e : Expr} :
    Assignment ts e → ∀ t rest, ClosesExpr t.kind →
    Gets (assignment (ts ++ t :: rest)) e (t :: rest)
  | .value h => by
    intro t rest ht
    rw [assignment]
    refine (gets_chain h (t :: rest) ht.ends.1 ht.ends.2.1).bind fun _ => ?_
    dsimp only
    rw [if_neg (show headKind (t :: rest) ≠ .assign from ht.ends.2.2)]
    exact ⟨_, rfl⟩
  | @Assignment.assign _ ts' u _ _ htarget hu hvalue => by
    intro t rest ht
    have hhead : headKind (u :: (ts' ++ t :: rest)) = .assign := hu
    rw [List.append_assoc, List.cons_append, assignment]
    refine (gets_chain htarget _ (by rw [hhead]; nofun) (by rw [hhead]; rfl)).bind fun _ => ?_
    dsimp only
    rw [if_pos hhead]
    refine (gets_expect hu _).bind fun _ => ?_
    exact (gets_assignment hvalue t rest ht).bind fun _ => ⟨_, rfl⟩

theorem gets_chain {ts : List Token} {e : Expr} : Chain ts e → ∀ rest, headKind rest ≠ .leftParen →
    (headKind rest).operator? = none → Gets (chain (ts ++ rest)) e rest
  | .mk hfirst hlinks => by
    intro rest hparen hop
    rw [List.append_assoc, chain]
    refine (gets_unary hfirst _ (hlinks.head_ne hparen)).bind fun _ => ?_
    refine (gets_linksFrom hlinks rest hparen hop).bind fun _ => ?_
    exact ⟨_, rfl⟩

theorem gets_linksFrom {ts : List Token} {links : List Link} :
    Links ts links → ∀ rest, headKind rest ≠ .leftParen →
    (headKind rest).operator? = none → GetsTail (linksFrom (ts ++ rest)) links rest
  | .nil => by
    intro rest _ hop
    rw [List.nil_append, linksFrom.eq_def]
    cases rest with
    | nil => exact ⟨_, rfl⟩
    | cons t rest =>
      simp only [show t.kind.operator? = none from hop]
      exact ⟨_, rfl⟩
  | .cons ht hoperand hlinks => by
    intro rest hparen hop
    rw [List.cons_append, List.append_assoc, linksFrom.eq_def]
    simp only [ht]
    refine (gets_unary hoperand _ (hlinks.head_ne hparen)).bindTail fun _ => ?_
    refine (gets_linksFrom hlinks rest hparen hop).bindTail fun _ => ?_
    exact ⟨_, rfl⟩

theorem gets_unary {ts : List Token} {e : Expr} : Unary ts e → ∀ rest, headKind rest ≠ .leftParen →
    Gets (unary (ts ++ rest)) e rest
  | .plus ht h => by
    intro rest hparen
    rw [List.cons_append, unary.eq_def]
    simp only [if_pos ht]
    exact (gets_unary h rest hparen).bind fun _ => ⟨_, rfl⟩
  | .negative (n := n) ht hn hvalue => by
    intro rest _
    rw [List.cons_append, List.cons_append, List.nil_append, unary.eq_def]
    simp only [ht, reduceCtorEq, if_false, if_true,
      if_pos (show headKind (n :: rest) = .integer from hn)]
    refine (gets_expect hn rest).bind fun _ => ?_
    simp only [hvalue]
    exact ⟨_, rfl⟩
  | @Unary.minus _ ts _ ht hts h => by
    intro rest hparen
    have hhead : headKind (ts ++ rest) ≠ .integer := by
      cases ts with
      | nil => cases h.starts []
      | cons _ _ => exact hts
    rw [List.cons_append, unary.eq_def]
    simp only [ht, reduceCtorEq, if_false, if_true, if_neg hhead]
    exact (gets_unary h rest hparen).bind fun _ => ⟨_, rfl⟩
  | .primary h => by
    intro rest hparen
    have hread := gets_primary h rest hparen
    obtain ⟨t, tail, rfl, hplus, hminus⟩ := h.head
    rw [List.cons_append, unary.eq_def]
    simp only [if_neg hplus, if_neg hminus]
    exact hread

theorem gets_primary {ts : List Token} {e : Expr} :
    Primary ts e → ∀ rest, headKind rest ≠ .leftParen →
    Gets (primary (ts ++ rest)) e rest
  | .integer ht hvalue => by
    intro rest _
    rw [List.cons_append, List.nil_append, primary.eq_def]
    simp only [ht, hvalue]
    exact ⟨_, rfl⟩
  | .character ht hc => by
    intro rest _
    rw [List.cons_append, List.nil_append, primary.eq_def]
    simp only [ht, hc]
    exact ⟨_, rfl⟩
  | .string ht => by
    intro rest _
    rw [List.cons_append, List.nil_append, primary.eq_def]
    simp only [ht]
    exact ⟨_, rfl⟩
  | .name ht => by
    intro rest hparen
    rw [List.cons_append, List.nil_append, primary.eq_def]
    simp only [ht]
    match rest, hparen with
    | [], _ => exact ⟨_, rfl⟩
    | [p], hparen =>
      simp only [if_neg (show p.kind ≠ .leftParen from hparen)]
      exact ⟨_, rfl⟩
    | p :: a :: rest, hparen =>
      simp only [if_neg (show p.kind ≠ .leftParen from hparen)]
      exact ⟨_, rfl⟩
  | .call ht hp hargs => by
    intro rest _
    simp only [List.cons_append]
    rw [primary.eq_def]
    simp only [ht, if_pos hp]
    exact (gets_arguments hargs rest).bind fun _ => ⟨_, rfl⟩
  | .paren (q := q) hp h hq => by
    intro rest _
    rw [List.cons_append, List.append_assoc, primary.eq_def]
    simp only [hp]
    exact (gets_assignment h q rest (.inl hq)).bind fun _ => (gets_expect hq rest).bind
      fun _ => ⟨_, rfl⟩

theorem gets_arguments {ts : List Token} {args : List Expr} : Arguments ts args → ∀ rest,
    Gets (arguments (ts ++ rest)) args rest
  | .none (q := q) hq => by
    intro rest
    rw [arguments, if_pos (show headKind ([q] ++ rest) = .rightParen from hq)]
    exact (gets_expect hq rest).bind fun _ => ⟨_, rfl⟩
  | .last (q := q) h hq => by
    intro rest
    have hstart := h.starts (q :: rest)
    rw [List.append_assoc, List.cons_append, List.nil_append, arguments,
      if_neg (fun hhead => by rw [hhead] at hstart; cases hstart)]
    refine (gets_assignment h q rest (.inl hq)).bind fun _ => ?_
    dsimp only
    rw [if_neg (by simp [headKind, hq])]
    exact (gets_expect hq rest).bind fun _ => ⟨_, rfl⟩
  | @Arguments.more c _ ts' _ _ h hc hmore => by
    intro rest
    have hstart := h.starts (c :: (ts' ++ rest))
    rw [List.append_assoc, List.cons_append, arguments,
      if_neg (fun hhead => by rw [hhead] at hstart; cases hstart)]
    refine (gets_assignment h c (ts' ++ rest) (.inr (.inl hc))).bind fun _ => ?_
    dsimp only
    rw [if_pos (show headKind (c :: (ts' ++ rest)) = .comma from hc)]
    exact (gets_expect hc _).bind fun _ => (gets_arguments hmore rest).bind fun _ => ⟨_, rfl⟩

end

/-! ### Variables and statements -/

/-- Behind the initializer stands a comma or a semicolon. -/
theorem gets_initializer {init : Option Initializer} (h : Initialized ts init)
    (ht : t.kind = .comma ∨ t.kind = .semicolon) (rest : List Token) :
    GetsTail (initializer (ts ++ t :: rest)) init (t :: rest) := by
  unfold initializer
  cases h with
  | absent =>
    have hassign : t.kind ≠ .assign := by rcases ht with ht | ht <;> rw [ht] <;> nofun
    simp only [List.nil_append, if_neg hassign]
    exact ⟨_, rfl⟩
  | value hu h =>
    simp only [List.cons_append, if_pos hu]
    exact (gets_assignment h t rest (.inr ht)).bindTail fun _ => ⟨_, rfl⟩

theorem gets_variablesFrom {vars : InitDeclarator × List InitDeclarator} (h : Variables d ts vars)
    (rest : List Token) : Gets (variablesFrom d (ts ++ rest)) vars rest := by
  induction h with
  | @last d ts init s hinit hs =>
    rw [List.append_assoc, List.cons_append, List.nil_append, variablesFrom]
    refine (gets_initializer hinit (.inr hs) rest).bind fun _ => ?_
    dsimp only
    rw [if_neg (by simp [headKind, hs])]
    exact (gets_expect hs rest).bind fun _ => ⟨_, rfl⟩
  | @more d next ts ns ts' init c second others hinit hc hnext _ ih =>
    rw [List.append_assoc, List.cons_append, List.append_assoc, variablesFrom]
    refine (gets_initializer hinit (.inl hc) _).bind fun _ => ?_
    dsimp only
    rw [if_pos (show headKind (c :: (ns ++ (ts' ++ rest))) = .comma from hc)]
    refine (gets_expect hc _).bind fun _ => (gets_declarator hnext _).bind fun _ =>
      ih.bind fun _ => ?_
    exact ⟨_, rfl⟩

theorem gets_varDecl {decl : VarDecl} (h : Declaration ts decl) (rest : List Token) :
    Gets (varDecl (ts ++ rest)) decl rest := by
  cases h with
  | mk htype hname hvars =>
    rw [List.append_assoc, List.append_assoc, varDecl]
    refine (gets_typeSpec htype (hname.head_ne _)).bind fun _ =>
      (gets_declarator hname _).bind fun _ => ?_
    exact (gets_variablesFrom hvars rest).bind fun _ => ⟨_, rfl⟩

theorem gets_condition {cond : Expr} (h : Condition ts cond) (rest : List Token) :
    Gets (condition (ts ++ rest)) cond rest := by
  cases h with
  | @mk p q ts _ hp h hq =>
    rw [List.cons_append, List.append_assoc, condition]
    refine (gets_expect hp _).bind fun _ => (gets_assignment h q rest (.inl hq)).bind fun _ => ?_
    exact (gets_expect hq rest).bind fun _ => ⟨_, rfl⟩

theorem gets_returnValue {value : Option Expr} (h : Returned ts value) (rest : List Token) :
    Gets (returnValue (ts ++ rest)) value rest := by
  unfold returnValue
  cases h with
  | @nothing s hs =>
    rw [if_pos (show headKind ([s] ++ rest) = .semicolon from hs)]
    exact (gets_expect hs rest).bind fun _ => ⟨_, rfl⟩
  | @value ts e s h hs =>
    have hstart := h.starts (s :: rest)
    rw [List.append_assoc, List.cons_append, List.nil_append,
      if_neg (fun hhead => by rw [hhead] at hstart; cases hstart)]
    exact (gets_assignment h s rest (.inr (.inr hs))).bind fun _ => (gets_expect hs rest).bind
      fun _ => ⟨_, rfl⟩

/-- No other statement begins with the first token of a type. -/
theorem gets_statement_vars {decl : VarDecl} (h : Declaration ts decl) (rest : List Token) :
    Gets (statement (ts ++ rest)) (.vars decl) rest := by
  have hread := gets_varDecl h rest
  have hstart := h.starts rest
  generalize ts ++ rest = input at hread hstart ⊢
  cases input with
  | nil => cases hstart
  | cons t tail =>
    rw [show headKind (t :: tail) = t.kind from rfl] at hstart
    rw [statement.eq_def]
    dsimp only
    split
    case h_6 =>
      rw [if_pos hstart]
      exact hread.bind fun _ => ⟨_, rfl⟩
    all_goals
      next hk =>
        rw [hk] at hstart
        cases hstart

/-- Nor does one begin with the first token of an expression. -/
theorem gets_statement_expr {t s : Token} {e : Expr} (h : Assignment (t :: ts) e)
    (hs : s.kind = .semicolon) (rest : List Token) :
    Gets (statement (t :: (ts ++ [s]) ++ rest)) (.expr t.pos e) rest := by
  have hstart : startsExpr t.kind = true := h.starts []
  have hread := gets_assignment h s rest (.inr (.inr hs))
  rw [List.cons_append, List.append_assoc, statement.eq_def]
  dsimp only
  split
  case h_6 =>
    have htype : t.kind.startsType ≠ true := by
      intro htype
      cases hk : t.kind <;> simp [hk, startsExpr, TokenKind.startsType, TokenKind.typeTag?]
        at hstart htype
    rw [if_neg htype]
    exact hread.bind fun _ => (gets_expect hs rest).bind fun _ => ⟨_, rfl⟩
  all_goals
    next hk =>
      rw [hk] at hstart
      cases hstart

mutual

/-- A statement that ends open would take an `else` that follows it. -/
theorem gets_statement {ts : List Token} {stmt : Stmt} : Statement ts stmt → ∀ rest,
    (stmt.endsOpen = true → headKind rest ≠ .kwElse) → Gets (statement (ts ++ rest)) stmt rest
  | .ret ht h => by
    intro rest _
    rw [List.cons_append, statement.eq_def]
    simp only [ht]
    exact (gets_returnValue h rest).bind fun _ => ⟨_, rfl⟩
  | .ifThen ht hcond hbody => by
    intro rest hopen
    rw [List.cons_append, List.append_assoc, statement.eq_def]
    simp only [ht]
    refine (gets_condition hcond _).bind fun _ =>
      (gets_statement hbody rest fun _ => hopen rfl).bind fun _ => ?_
    dsimp only
    rw [if_neg (hopen rfl)]
    exact ⟨_, rfl⟩
  | @Statement.ifThenElse _ l _ _ bs' _ _ _ ht hcond hthen hclosed hl helse => by
    intro rest hopen
    rw [List.cons_append, List.append_assoc, List.append_assoc, List.cons_append, statement.eq_def]
    simp only [ht]
    refine (gets_condition hcond _).bind fun _ => ?_
    refine (gets_statement hthen (l :: (bs' ++ rest)) fun h => by rw [hclosed] at h; cases h).bind
      fun _ => ?_
    dsimp only
    rw [if_pos (show headKind (l :: (bs' ++ rest)) = .kwElse from hl)]
    refine (gets_expect hl _).bind fun _ => (gets_statement helse rest hopen).bind fun _ => ?_
    exact ⟨_, rfl⟩
  | .while ht hcond hbody => by
    intro rest hopen
    rw [List.cons_append, List.append_assoc, statement.eq_def]
    simp only [ht]
    exact (gets_condition hcond _).bind fun _ => (gets_statement hbody rest hopen).bind
      fun _ => ⟨_, rfl⟩
  | .block ht h => by
    intro rest _
    rw [List.cons_append, statement.eq_def]
    simp only [ht]
    exact (gets_statementsFrom h rest).bind fun _ => ⟨_, rfl⟩
  | .empty ht => by
    intro rest _
    rw [List.cons_append, statement.eq_def]
    simp only [ht]
    exact ⟨_, rfl⟩
  | .vars h => by
    intro rest _
    exact gets_statement_vars h rest
  | .expr h hs => by
    intro rest _
    exact gets_statement_expr h hs rest

theorem gets_statementsFrom {ts : List Token} {stmts : List Stmt} : Statements ts stmts → ∀ rest,
    Gets (statementsFrom (ts ++ rest)) stmts rest
  | .nil (q := q) hq => by
    intro rest
    rw [statementsFrom, if_pos (.inl (show headKind ([q] ++ rest) = .rightBrace from hq))]
    exact (gets_expect hq rest).bind fun _ => ⟨_, rfl⟩
  | @Statements.cons ss ts' _ _ h hmore => by
    intro rest
    have hstart := h.starts (ts' ++ rest)
    have hinside : ¬(headKind (ss ++ (ts' ++ rest)) = .rightBrace ∨
        headKind (ss ++ (ts' ++ rest)) = .eof) := by
      rintro (hhead | hhead) <;> (rw [hhead] at hstart; cases hstart)
    rw [List.append_assoc, statementsFrom, if_neg hinside]
    refine (gets_statement h (ts' ++ rest) fun _ => hmore.head_ne rest).bind fun _ => ?_
    exact (gets_statementsFrom hmore rest).bind fun _ => ⟨_, rfl⟩

end

/-! ### External declarations -/

theorem gets_param {p : Param} (h : Parameter ts p) (rest : List Token) :
    Gets (param (ts ++ rest)) p rest := by
  cases h with
  | mk htype hname =>
    rw [List.append_assoc, param]
    refine (gets_typeSpec htype (hname.head_ne _)).bind fun _ => ?_
    exact (gets_declarator hname rest).bind fun _ => ⟨_, rfl⟩

theorem gets_paramsFrom (h : ParameterList ts ps)
    (hrest : headKind rest ≠ .comma) : Gets (paramsFrom (ts ++ rest)) ps rest := by
  induction h with
  | last h =>
    rw [paramsFrom]
    refine (gets_param h rest).bind fun _ => ?_
    dsimp only
    rw [if_neg hrest]
    exact ⟨_, rfl⟩
  | @more ts ts' p ps c h hc _ ih =>
    rw [List.append_assoc, List.cons_append, paramsFrom]
    refine (gets_param h _).bind fun _ => ?_
    dsimp only
    rw [if_pos (show headKind (c :: (ts' ++ rest)) = .comma from hc)]
    exact (gets_expect hc _).bind fun _ => ih.bind fun _ => ⟨_, rfl⟩

theorem gets_params (h : Parameters ts ps) (rest : List Token) :
    Gets (params (ts ++ rest)) ps rest := by
  unfold params
  cases h with
  | @none q hq =>
    simp only [show headKind ([q] ++ rest) = .rightParen from hq]
    exact (gets_expect hq rest).bind fun _ => ⟨_, rfl⟩
  | @void v q hv hq =>
    simp only [show headKind ([v, q] ++ rest) = .kwVoid from hv]
    refine (gets_expect hv (q :: rest)).bind fun _ => ?_
    dsimp only
    rw [if_pos (show headKind (q :: rest) = .rightParen from hq)]
    exact (gets_expect hq rest).bind fun _ => ⟨_, rfl⟩
  | @some ts ps q h hts hq =>
    have hstart := h.starts (q :: rest)
    have hvoid : headKind (ts ++ q :: rest) ≠ .kwVoid := by
      cases ts with
      | nil => simp [headKind, hq]
      | cons t ts => exact hts
    rw [List.append_assoc, List.cons_append, List.nil_append]
    split
    next hhead =>
      rw [hhead] at hstart
      cases hstart
    next hhead => exact absurd hhead hvoid
    next =>
      refine (gets_paramsFrom h (by simp [headKind, hq])).bind fun _ => ?_
      exact (gets_expect hq rest).bind fun _ => ⟨_, rfl⟩

theorem gets_block {b : Token} {bs : List Token} {stmts : List Stmt} (hb : b.kind = .leftBrace)
    (hbody : Statements bs stmts) (rest : List Token) :
    Gets (block (b :: (bs ++ rest))) ⟨b.pos, stmts⟩ rest := by
  rw [block]
  refine (gets_expect hb (bs ++ rest)).bind fun _ => ?_
  exact (gets_statementsFrom hbody rest).bind fun _ => ⟨_, rfl⟩

theorem gets_external {e : External} (h : Member ts e) (rest : List Token) :
    Gets (external (ts ++ rest)) e rest := by
  rw [external]
  cases h with
  | @prototype ts ns ps p a s type d params htype hname hp hparams hs =>
    rw [List.append_assoc, List.append_assoc, List.cons_append, List.cons_append, List.append_assoc]
    refine (gets_typeSpec htype (hname.head_ne _)).bind fun _ =>
      (gets_declarator hname _).bind fun _ => ?_
    dsimp only
    rw [if_pos (show headKind (p :: a :: (ps ++ ([s] ++ rest))) = .leftParen from hp)]
    refine (gets_expect hp _).bind fun _ => Gets.bind (r := rest) ?_ fun _ => ⟨_, rfl⟩
    rw [functionFrom]
    refine (gets_params hparams ([s] ++ rest)).bind fun _ => ?_
    dsimp only
    rw [if_pos (show headKind ([s] ++ rest) = .semicolon from hs)]
    exact (gets_expect hs rest).bind fun _ => ⟨_, rfl⟩
  | @definition ts ns ps bs p a b type d params stmts htype hname hp hparams hb hbody =>
    rw [List.append_assoc, List.append_assoc, List.cons_append, List.cons_append, List.append_assoc,
      List.cons_append]
    refine (gets_typeSpec htype (hname.head_ne _)).bind fun _ =>
      (gets_declarator hname _).bind fun _ => ?_
    dsimp only
    rw [if_pos (show headKind (p :: a :: (ps ++ b :: (bs ++ rest))) = .leftParen from hp)]
    refine (gets_expect hp _).bind fun _ => Gets.bind (r := rest) ?_ fun _ => ⟨_, rfl⟩
    rw [functionFrom]
    refine (gets_params hparams (b :: (bs ++ rest))).bind fun _ => ?_
    dsimp only
    rw [if_neg (show headKind (b :: (bs ++ rest)) ≠ .semicolon by simp [headKind, hb])]
    exact (gets_block hb hbody rest).bind fun _ => ⟨_, rfl⟩
  | vars h =>
    cases h with
    | @mk ts ns vs type d first more htype hname hvars =>
      rw [List.append_assoc, List.append_assoc]
      refine (gets_typeSpec htype (hname.head_ne _)).bind fun _ =>
        (gets_declarator hname _).bind fun _ => ?_
      dsimp only
      rw [if_neg (hvars.head_ne rest)]
      exact (gets_variablesFrom hvars rest).bind fun _ => ⟨_, rfl⟩

/-- The tokens of a program are read to their end. -/
theorem externals_of_members (h : Members ts es) : externals ts = .ok es := by
  induction h with
  | nil => rw [externals]; rfl
  | @cons ts ts' e es h _ ih =>
    obtain ⟨hlt, hread⟩ := gets_external h ts'
    have hne : ts ++ ts' ≠ [] := by
      intro hnil
      rw [hnil] at hlt
      exact absurd hlt (Nat.not_lt_zero _)
    rw [externals, if_neg (by rwa [List.isEmpty_iff]), hread]
    show (externals ts' >>= fun es => .ok (e :: es)) = .ok (e :: es)
    rw [ih]
    rfl

/-- The parser reads the phrases and nothing else. -/
theorem externals_eq_ok_iff : externals ts = .ok es ↔ Members ts es := by
  refine ⟨fun h => ?_, externals_of_members⟩
  exact finds_externals ts es h

end Parser

/-- A program is read from the tokens before the end of a text; it begins where the first of them or
the end is. -/
theorem Program.ofText_eq_ok_iff {text : List Char} {program : Program} :
    Program.ofText text = .ok program ↔
      Phrase.Members (TokenStream.ofText text).tokens program.externals ∧
      program.pos = ((TokenStream.ofText text).tokens.head?.map (·.pos)).getD
        (TokenStream.ofText text).stop := by
  rw [← Parser.externals_eq_ok_iff]
  unfold Program.ofText
  cases hread : Parser.externals (TokenStream.ofText text).tokens with
  | error e => simp [hread]
  | ok es =>
    obtain ⟨pos, externals⟩ := program
    simp only [hread, Except.ok.injEq, Program.mk.injEq]
    exact ⟨fun ⟨hpos, hes⟩ => ⟨hes, hpos.symm⟩, fun ⟨hes, hpos⟩ => ⟨hpos.symm, hes⟩⟩

end CSubset.Surface
