import CSubset.Proofs.Surface.Grammar
import CSubset.Proofs.Surface.Reading
import CSubset.Proofs.Tree.Parsed
import Mathlib.Tactic.Ring

/-!
# The parser accepts its grammar

A text is read as a program exactly if its tokens are derived from the grammar
(`parse_succeeds_iff_derives`). The parser reads the phrases (`Parser.externals_eq_ok_iff`), so what
is left is that phrases and derived lists are the same lists of tokens:

* every phrase is derived (`mem_language_of_members` and the lemmas before it);
* the lists of tokens that are phrases are closed under the rules (`rule_spelled_le`), so that they
  contain all that is derived. Where the grammar is ambiguous and the phrases are not, another
  phrase is found for the same tokens (`Statement.exists_with_else`, `Unary.exists_negated`).
-/

namespace CSubset.Grammar

open Computability
open Surface (Expr Link Stmt VarDecl TypeSpec Declarator InitDeclarator Initializer Param External)
open Surface.Phrase
open Surface.Parser (integerValue? headKind)

variable {ts w ns : List Token} {d : Declarator} {e : Expr} {l : Language Token} {t : Token}
  {bound : Nat} {negative : Bool} {ps : List Param} {type : TypeSpec}

/-! ## Literals -/

theorem asciiDigit?_eq_some {c : Char} (hc : '0' ≤ c ∧ c ≤ '9') :
    Text.asciiDigit? c = some (c.toNat - '0'.toNat) := by
  rw [Text.asciiDigit?, if_pos hc]

/-- Reading digits one by one gives the numeral, with what has been read before in front. -/
theorem foldlM_asciiDigit?_eq_some_iff (cs : List Char) (start n : Nat) :
    cs.foldlM (fun n c => (Text.asciiDigit? c).map (10 * n + ·)) start = some n ↔
      (∀ c ∈ cs, '0' ≤ c ∧ c ≤ '9') ∧ numeral cs + 10 ^ cs.length * start = n := by
  induction cs generalizing start with
  | nil => simp [numeral]
  | cons c cs ih =>
    by_cases hc : '0' ≤ c ∧ c ≤ '9'
    · have hvalue : numeral (c :: cs) = numeral cs + 10 ^ cs.length * (c.toNat - '0'.toNat) := by
        simp [numeral, Nat.ofDigits_append]
      have hsum : numeral cs + 10 ^ cs.length * (10 * start + (c.toNat - '0'.toNat)) =
          numeral (c :: cs) + 10 ^ (c :: cs).length * start := by
        rw [hvalue, List.length_cons]
        ring
      rw [List.foldlM_cons, asciiDigit?_eq_some hc]
      simp only [Option.map_some, Option.bind_eq_bind, Option.bind_some]
      rw [ih, hsum, List.forall_mem_cons]
      simp only [hc, and_self, true_and]
    · have hnone : Text.asciiDigit? c = none := by rw [Text.asciiDigit?, if_neg hc]
      simp [List.foldlM_cons, hnone, hc]

theorem decimalValue?_eq_some_iff {cs : List Char} {n : Nat} :
    Text.decimalValue? cs = some n ↔ cs ≠ [] ∧ (∀ c ∈ cs, '0' ≤ c ∧ c ≤ '9') ∧ numeral cs = n := by
  cases cs with
  | nil => simp [Text.decimalValue?]
  | cons c cs =>
    rw [Text.decimalValue?, foldlM_asciiDigit?_eq_some_iff, mul_zero, add_zero]
    · simp
    · exact List.cons_ne_nil c cs

theorem integer_mem_iff (ht : t.kind = .integer) :
    [t] ∈ integer bound ↔ ∃ n, Text.decimalValue? t.text.toList = some n ∧ n ≤ bound := by
  simp only [decimalValue?_eq_some_iff]
  constructor
  · rintro ⟨u, _, hne, hdigits, hle, heq⟩
    obtain rfl : t = u := List.head_eq_of_cons_eq heq
    exact ⟨_, ⟨hne, hdigits, rfl⟩, hle⟩
  · rintro ⟨n, ⟨hne, hdigits, rfl⟩, hle⟩
    exact ⟨t, ht, hne, hdigits, hle, rfl⟩

/-- The largest number that may stand in an integer token. -/
def largest (negative : Bool) : Nat := if negative then 2147483648 else 2147483647

/-- A literal has a value if it is not too large. -/
theorem exists_integerValue?_iff (ht : t.kind = .integer) :
    (∃ value, integerValue? negative t.text = some value) ↔ [t] ∈ integer (largest negative) := by
  rw [integer_mem_iff ht]
  cases hvalue : Text.decimalValue? t.text.toList with
  | none => simp [integerValue?, hvalue]
  | some n =>
    have hbound : n < 0x80000000 ↔ n ≤ 2147483647 := by omega
    cases negative with
    | true => by_cases hle : n ≤ 2147483648 <;> simp [integerValue?, hvalue, largest, guard, hle]
    | false =>
      by_cases hle : n ≤ 2147483647 <;> simp [integerValue?, hvalue, largest, guard, hbound, hle]

theorem exists_of_mem_integer (h : w ∈ integer (largest negative)) :
    ∃ t value, t.kind = .integer ∧ integerValue? negative t.text = some value ∧ w = [t] := by
  have hinteger := h
  obtain ⟨t, ht, _, _, _, rfl⟩ := hinteger
  obtain ⟨value, hvalue⟩ := (exists_integerValue?_iff ht).mpr h
  exact ⟨t, value, ht, hvalue, rfl⟩

theorem mem_operator_iff :
    w ∈ operator ↔ ∃ t : Token, ∃ op, t.kind.operator? = some op ∧ w = [t] := by
  have hkind (kind : TokenKind) : kind ∈ operators ↔ ∃ op, kind.operator? = some op := by
    cases kind <;> simp [operators, TokenKind.operator?]
  constructor
  · rintro ⟨t, ht, rfl⟩
    obtain ⟨op, hop⟩ := (hkind t.kind).mp ht
    exact ⟨t, op, hop, rfl⟩
  · rintro ⟨t, op, hop, rfl⟩
    exact ⟨t, (hkind t.kind).mpr ⟨op, hop⟩, rfl⟩

/-! ## Every phrase is derived

The phrases follow the parser, the grammar has one rule for each nonterminal. -/

theorem mem_opt_const {b : Bool} (h : Qualifier ts b) : ts ∈ opt (word .kwConst) := by
  cases h with
  | absent => exact nil_mem_opt _
  | const ht => exact mem_opt_of_mem (singleton_mem_word_iff.mpr ht)

theorem mem_type (h : TypeName ts type) : ts ∈ language .type := by
  cases h with
  | @mk before after _ _ t tag hbefore ht hafter =>
    have htag : [t] ∈ word .kwInt + word .kwChar + word .kwVoid := by
      simp only [Language.mem_add, singleton_mem_word_iff]
      cases hkind : t.kind <;> simp_all [TokenKind.typeTag?]
    apply rule_language_le
    rw [rule, mul_assoc]
    exact Language.append_mem_mul (mem_opt_const hbefore)
      (Language.append_mem_mul htag (mem_opt_const hafter))

theorem mem_stars {stars : List Token} (h : ∀ s ∈ stars, s.kind = .star) :
    stars ∈ (word .star)∗ := by
  induction stars with
  | nil => exact Language.nil_mem_kstar _
  | cons s stars ih =>
    rw [List.forall_mem_cons] at h
    exact append_mem_kstar (v := [s]) (singleton_mem_word_iff.mpr h.1) (ih h.2)

theorem mem_declarator (h : Declared ns d) : ns ∈ language .declarator := by
  cases h with
  | mk hstars ht =>
    apply rule_language_le
    exact Language.append_mem_mul (mem_stars hstars) (singleton_mem_word_iff.mpr ht)

mutual

/-- By induction on the phrase: each of its rules is an alternative of the grammar. -/
theorem mem_assign {ts : List Token} {e : Expr} : Assignment ts e → ts ∈ language .assign
  | .value h => by
    apply rule_language_le
    rw [rule, ← List.append_nil ts]
    exact Language.append_mem_mul (mem_binary h) (nil_mem_opt _)
  | .assign htarget ht hvalue => by
    apply rule_language_le
    exact Language.append_mem_mul (mem_binary htarget)
      (mem_opt_of_mem (cons_mem_word_mul ht (mem_assign hvalue)))

theorem mem_binary {ts : List Token} {e : Expr} : Chain ts e → ts ∈ language .binary
  | .mk hfirst hlinks =>
    rule_language_le _ (Language.append_mem_mul (mem_unary hfirst) (mem_links hlinks))

theorem mem_links {ts : List Token} {links : List Link} :
    Links ts links → ts ∈ (operator * language .unary)∗
  | .nil => Language.nil_mem_kstar _
  | .cons ht hoperand hlinks => by
    have hlink :=
      Language.append_mem_mul (mem_operator_iff.mpr ⟨_, _, ht, rfl⟩) (mem_unary hoperand)
    exact append_mem_kstar hlink (mem_links hlinks)

theorem mem_unary {ts : List Token} {e : Expr} : Unary ts e → ts ∈ language .unary
  | .plus ht h => rule_language_le _ (.inl (.inr (cons_mem_word_mul ht (mem_unary h))))
  | .negative ht hn hvalue =>
    rule_language_le _
      (.inl (.inl (cons_mem_word_mul ht (.inr ((exists_integerValue?_iff hn).mp ⟨_, hvalue⟩)))))
  | .minus ht _ h => rule_language_le _ (.inl (.inl (cons_mem_word_mul ht (.inl (mem_unary h)))))
  | .primary h => rule_language_le _ (.inr (mem_primary h))

theorem mem_primary {ts : List Token} {e : Expr} : Primary ts e → ts ∈ language .primary
  | .integer ht hvalue => by
    have hmem := (exists_integerValue?_iff ht).mp ⟨_, hvalue⟩
    exact rule_language_le _ (.inl (.inl (.inl (.inl hmem))))
  | .character ht hc => rule_language_le _ (.inl (.inl (.inl (.inr ⟨_, ht, by simp [hc], rfl⟩))))
  | .string ht => rule_language_le _ (.inl (.inl (.inr (singleton_mem_word_iff.mpr ht))))
  | .name ht => rule_language_le _ (.inl (.inr (cons_mem_word_mul ht (nil_mem_opt _))))
  | .call ht hp hargs => by
    have hclosed := mem_args hargs
    rw [← mul_assoc] at hclosed
    have hcall := cons_mem_word_mul hp (mul_le_mul_left (rule_language_le .args) _ hclosed)
    rw [← mul_assoc] at hcall
    exact rule_language_le _ (.inl (.inr (cons_mem_word_mul ht (mem_opt_of_mem hcall))))
  | .paren hp h hq => by
    have hparen := cons_mem_word_mul hp
      (Language.append_mem_mul (rule_language_le .expr (mem_assign h))
      (singleton_mem_word_iff.mpr hq))
    rw [← mul_assoc] at hparen
    exact rule_language_le _ (.inr hparen)

/-- The arguments with the closing parenthesis. -/
theorem mem_args {ts : List Token} {args : List Expr} :
    Arguments ts args →
    ts ∈ opt (language .assign * ((word .comma * language .assign)∗ * opt (word .comma))) *
      word .rightParen
  | .none hq => Language.append_mem_mul (nil_mem_opt _) (singleton_mem_word_iff.mpr hq)
  | .last h hq => by
    have hnone : [] ∈ (word .comma * language .assign)∗ * opt (word .comma) :=
      Language.append_mem_mul (Language.nil_mem_kstar _) (nil_mem_opt _)
    have hargs := Language.append_mem_mul (mem_assign h) hnone
    rw [List.append_nil] at hargs
    exact Language.append_mem_mul (mem_opt_of_mem hargs) (singleton_mem_word_iff.mpr hq)
  | .more (c := c) h hc hmore => by
    obtain ⟨w, hw, v, hv, rfl⟩ := mem_args hmore
    rw [← List.cons_append, ← List.append_assoc]
    refine Language.append_mem_mul (mem_opt_of_mem (Language.append_mem_mul (mem_assign h) ?_)) hv
    rcases hw with rfl | ⟨a, ha, b, hb, rfl⟩
    · have hcomma := mem_opt_of_mem (singleton_mem_word_iff.mpr hc)
      exact Language.append_mem_mul (Language.nil_mem_kstar _) hcomma
    · exact append_mem_kstar_mul (cons_mem_word_mul hc ha) hb

end

theorem mem_initializer {init : Option Initializer} (h : Initialized ts init) :
    ts ∈ opt (word .assign * language .assign) := by
  cases h with
  | absent => exact nil_mem_opt _
  | value ht h => exact mem_opt_of_mem (cons_mem_word_mul ht (mem_assign h))

theorem mem_variables {vars : InitDeclarator × List InitDeclarator} (h : Variables d ts vars) :
    ts ∈ opt (word .assign * language .assign) *
      ((word .comma * language .declarator * opt (word .assign * language .assign))∗ * word
        .semicolon) := by
  induction h with
  | last hinit hs =>
    refine Language.append_mem_mul (mem_initializer hinit) ?_
    exact Language.append_mem_mul (Language.nil_mem_kstar _) (singleton_mem_word_iff.mpr hs)
  | more hinit hc hnext _ ih =>
    obtain ⟨i, hi, vs, hvs, rfl⟩ := ih
    refine Language.append_mem_mul (mem_initializer hinit) ?_
    rw [← List.append_assoc, ← List.cons_append]
    refine append_mem_kstar_mul ?_ hvs
    rw [mul_assoc]
    exact cons_mem_word_mul hc (Language.append_mem_mul (mem_declarator hnext) hi)

theorem mem_vardecl {decl : VarDecl} (h : Declaration ts decl) : ts ∈ language .vardecl := by
  cases h with
  | mk htype hname hvars =>
    apply rule_language_le
    simp only [rule, mul_assoc]
    have hmem := mem_variables hvars
    simp only [mul_assoc] at hmem
    exact Language.append_mem_mul (mem_type htype)
      (Language.append_mem_mul (mem_declarator hname) hmem)

theorem mem_expr (h : Assignment ts e) : ts ∈ language .expr :=
  rule_language_le .expr (mem_assign h)

theorem mem_return {value : Option Expr} (h : Returned ts value) :
    ts ∈ opt (language .expr) * word .semicolon := by
  cases h with
  | nothing hs => exact Language.append_mem_mul (nil_mem_opt _) (singleton_mem_word_iff.mpr hs)
  | value h hs =>
    exact Language.append_mem_mul (mem_opt_of_mem (mem_expr h)) (singleton_mem_word_iff.mpr hs)

theorem append_mem_condition_mul (h : Condition ts e)
    (hw : w ∈ l) : ts ++ w ∈ word .leftParen * (language .expr * (word .rightParen * l)) := by
  cases h with
  | mk hp h hq =>
    rw [List.cons_append, List.append_assoc]
    exact cons_mem_word_mul hp (Language.append_mem_mul (mem_expr h) (cons_mem_word_mul hq hw))

mutual

/-- A statement with an `else` is derived as such, whichever `if` that belongs to. -/
theorem mem_stmt {ts : List Token} {stmt : Stmt} (h : Statement ts stmt) : ts ∈ language .stmt := by
  apply rule_language_le
  simp only [rule, mul_assoc]
  match h with
  | .ret ht h => exact .inl (.inl (.inl (.inl (.inl (.inl (cons_mem_word_mul ht (mem_return h)))))))
  | .ifThen ht hcond hbody =>
    have hnone :=
      Language.append_mem_mul (mem_stmt hbody) (nil_mem_opt (word .kwElse * language .stmt))
    rw [List.append_nil] at hnone
    exact .inr (cons_mem_word_mul ht (append_mem_condition_mul hcond hnone))
  | .ifThenElse ht hcond hthen _ hl helse =>
    have hsome := mem_opt_of_mem (cons_mem_word_mul hl (mem_stmt helse))
    exact .inr (cons_mem_word_mul ht (append_mem_condition_mul hcond
      (Language.append_mem_mul (mem_stmt hthen) hsome)))
  | .while ht hcond hbody =>
    exact .inl (.inr (cons_mem_word_mul ht (append_mem_condition_mul hcond (mem_stmt hbody))))
  | .block ht h => exact .inl (.inl (.inl (.inl (.inl (.inr (mem_block ht h))))))
  | .empty ht => exact .inl (.inl (.inl (.inl (.inr (singleton_mem_word_iff.mpr ht)))))
  | .vars h => exact .inl (.inl (.inl (.inr (mem_vardecl h))))
  | .expr h hs =>
    exact .inl (.inl (.inr (Language.append_mem_mul (mem_expr h) (singleton_mem_word_iff.mpr hs))))

theorem mem_block {t : Token} {ts : List Token} {stmts : List Stmt} (ht : t.kind = .leftBrace)
    (h : Statements ts stmts) : t :: ts ∈ language .block := by
  apply rule_language_le
  rw [rule, mul_assoc]
  exact cons_mem_word_mul ht (mem_stmts h)

theorem mem_stmts {ts : List Token} {stmts : List Stmt} :
    Statements ts stmts → ts ∈ (language .stmt)∗ * word .rightBrace
  | .nil hq => Language.append_mem_mul (Language.nil_mem_kstar _) (singleton_mem_word_iff.mpr hq)
  | .cons h hmore => append_mem_kstar_mul (mem_stmt h) (mem_stmts hmore)

end

theorem append_mem_param_mul {p : Param} (h : Parameter ts p)
    (hw : w ∈ l) : ts ++ w ∈ language .type * (language .declarator * l) := by
  cases h with
  | mk htype hname =>
    rw [List.append_assoc]
    exact Language.append_mem_mul (mem_type htype)
      (Language.append_mem_mul (mem_declarator hname) hw)

theorem mem_paramList (h : ParameterList ts ps) :
    ts ∈ language .type *
      (language .declarator * (word .comma * (language .type * language .declarator))∗) := by
  induction h with
  | @last ts _ h =>
    rw [← List.append_nil ts]
    exact append_mem_param_mul h (Language.nil_mem_kstar _)
  | more h hc _ ih =>
    refine append_mem_param_mul h ?_
    obtain ⟨ts, hts, _, ⟨ns, hns, w, hw, rfl⟩, rfl⟩ := ih
    dsimp only
    rw [← List.append_assoc, ← List.cons_append]
    exact append_mem_kstar (cons_mem_word_mul hc (Language.append_mem_mul hts hns)) hw

/-- The parameters with the closing parenthesis. -/
theorem mem_params (h : Parameters ts ps) : ts ∈ language .params * word .rightParen := by
  cases h with
  | none hq =>
    exact Language.append_mem_mul (rule_language_le .params (.inl (.inl rfl)))
      (singleton_mem_word_iff.mpr hq)
  | @void v q hv hq =>
    have hvoid := rule_language_le .params (.inl (.inr (singleton_mem_word_iff.mpr hv)))
    exact Language.append_mem_mul hvoid (singleton_mem_word_iff.mpr hq)
  | @some ts ps q h hts hq =>
    refine Language.append_mem_mul (rule_language_le .params (.inr ?_))
      (singleton_mem_word_iff.mpr hq)
    simp only [mul_assoc]
    refine ⟨mem_paramList h, fun t ht => ?_⟩
    cases ts with
    | nil => cases ht
    | cons u ts =>
      cases ht
      exact hts

theorem mem_function {ps : List Token} {p : Token} {params : List Param} (htype : TypeName ts type)
    (hname : Declared ns d) (hp : p.kind = .leftParen) (hparams : Parameters ps params)
    (hw : w ∈ language .block + word .semicolon) :
    ts ++ (ns ++ p :: (ps ++ w)) ∈ language .external := by
  apply rule_language_le
  simp only [rule, mul_assoc]
  have hclosed := Language.append_mem_mul (mem_params hparams) hw
  rw [mul_assoc] at hclosed
  exact .inl (Language.append_mem_mul (mem_type htype)
    (Language.append_mem_mul (mem_declarator hname) (cons_mem_word_mul hp hclosed)))

theorem mem_external {e : External} (h : Member ts e) : ts ∈ language .external := by
  cases h with
  | prototype htype hname hp hparams hs =>
    exact mem_function htype hname hp hparams (.inr (singleton_mem_word_iff.mpr hs))
  | definition htype hname hp hparams hb hbody =>
    exact mem_function htype hname hp hparams (.inl (mem_block hb hbody))
  | vars h => exact rule_language_le .external (.inr (mem_vardecl h))

theorem mem_program {es : List External} (h : Members ts es) : ts ∈ language .program := by
  apply rule_language_le
  induction h with
  | nil => exact Language.nil_mem_kstar _
  | cons h _ ih => exact append_mem_kstar (mem_external h) ih

/-! ## The phrases are closed under the rules

The languages of the grammar are the least ones that are closed under its rules, so it is enough
that the phrases are closed too. -/

/-- The lists of tokens that are phrases. Parameters and arguments are phrases with the parenthesis
behind them. -/
def spelled : Nonterminal → Language Token
  | .program => {w | ∃ es, Members w es}
  | .external => {w | ∃ e, Member w e}
  | .vardecl => {w | ∃ decl, Declaration w decl}
  | .type => {w | ∃ type, TypeName w type}
  | .declarator => {w | ∃ d, Declared w d}
  | .params => {w | ∀ q : Token, q.kind = .rightParen → ∃ ps, Parameters (w ++ [q]) ps}
  | .block => {w | ∃ t ts stmts, t.kind = .leftBrace ∧ Statements ts stmts ∧ w = t :: ts}
  | .stmt => {w | ∃ stmt, Statement w stmt}
  | .expr | .assign => {w | ∃ e, Assignment w e}
  | .binary => {w | ∃ e, Chain w e}
  | .unary => {w | ∃ e, Unary w e}
  | .primary => {w | ∃ e, Primary w e}
  | .args => {w | ∀ q : Token, q.kind = .rightParen → ∃ es, Arguments (w ++ [q]) es}

theorem exists_qualifier (h : w ∈ opt (word .kwConst)) : ∃ b, Qualifier w b := by
  rcases h with rfl | ⟨t, ht, rfl⟩
  · exact ⟨_, .absent⟩
  · exact ⟨_, .const ht⟩

theorem rule_type_le : rule spelled .type ≤ spelled .type := by
  rintro _ ⟨_, ⟨before, hbefore, w, hw, rfl⟩, after, hafter, rfl⟩
  obtain ⟨leading, hbefore⟩ := exists_qualifier hbefore
  obtain ⟨trailing, hafter⟩ := exists_qualifier hafter
  obtain ⟨t, tag, htag, rfl⟩ : ∃ t tag, t.kind.typeTag? = some tag ∧ w = [t] := by
    rcases hw with (⟨t, ht, rfl⟩ | ⟨t, ht, rfl⟩) | ⟨t, ht, rfl⟩ <;>
      exact ⟨t, _, by rw [ht]; rfl, rfl⟩
  dsimp only
  rw [← List.append_cons]
  exact ⟨_, .mk hbefore htag hafter⟩

theorem rule_declarator_le : rule spelled .declarator ≤ spelled .declarator := by
  apply kstar_mul_le
  · rintro _ ⟨t, ht, rfl⟩
    exact ⟨_, @Declared.mk [] t nofun ht⟩
  · rintro _ ⟨_, ⟨s, hs, rfl⟩, _, ⟨_, @⟨stars, t, hstars, ht⟩⟩, rfl⟩
    exact ⟨_, @Declared.mk (s :: stars) t (List.forall_mem_cons.mpr ⟨hs, hstars⟩) ht⟩

/-! ### Expressions -/

theorem rule_assign_le : rule spelled .assign ≤ spelled .assign := by
  rintro _ ⟨ts, ⟨target, htarget⟩, w, hw, rfl⟩
  rcases hw with rfl | ⟨_, ⟨t, ht, rfl⟩, ts', ⟨value, hvalue⟩, rfl⟩
  · dsimp only
    rw [List.append_nil]
    exact ⟨_, .value htarget⟩
  · exact ⟨_, .assign htarget ht hvalue⟩

theorem rule_binary_le : rule spelled .binary ≤ spelled .binary := by
  have hlinks : (operator * spelled .unary)∗ ≤ ({w | ∃ links, Links w links} : Language Token) := by
    apply kstar_le_of_mul_le_right
    · rintro _ rfl
      exact ⟨_, .nil⟩
    · rintro _ ⟨_, ⟨w, hw, ts, ⟨operand, hoperand⟩, rfl⟩, ts', ⟨links, hlinks⟩, rfl⟩
      obtain ⟨t, op, ht, rfl⟩ := mem_operator_iff.mp hw
      dsimp only
      rw [List.append_assoc, List.cons_append, List.nil_append]
      exact ⟨_, .cons ht hoperand hlinks⟩
  rintro _ ⟨ts, ⟨first, hfirst⟩, ts', hts', rfl⟩
  obtain ⟨links, hts'⟩ := hlinks hts'
  exact ⟨_, .mk hfirst hts'⟩

/-- An integer in front of which a minus sign is put is the whole operand. -/
theorem eq_singleton_of_unary (ht : t.kind = .integer)
    (h : Unary (t :: ts) e) : ts = [] ∧ [t] ∈ integer (largest false) := by
  cases h with
  | plus h _ | negative h _ _ | minus h _ _ => simp [ht] at h
  | primary h =>
    cases h with
    | integer _ hvalue => exact ⟨rfl, (exists_integerValue?_iff ht).mp ⟨_, hvalue⟩⟩
    | character h _ | string h | name h | call h _ _ | paren h _ _ => simp [ht] at h

theorem integer_mono {bound' : Nat} (h : bound ≤ bound') : integer bound ≤ integer bound' := by
  rintro _ ⟨t, ht, hne, hdigits, hle, rfl⟩
  exact ⟨t, ht, hne, hdigits, hle.trans h, rfl⟩

theorem rule_unary_le : rule spelled .unary ≤ spelled .unary := by
  have hnegative {t : Token} {ts : List Token} (ht : t.kind = .minus)
      (hts : ts ∈ integer (largest true)) : ∃ e, Unary (t :: ts) e := by
    obtain ⟨n, value, hn, hvalue, rfl⟩ := exists_of_mem_integer hts
    exact ⟨_, .negative ht hn hvalue⟩
  rintro _ ((⟨_, ⟨t, ht, rfl⟩, ts, ⟨e, h⟩ | hts, rfl⟩ | ⟨_, ⟨t, ht, rfl⟩, ts,
    ⟨e, h⟩, rfl⟩) | ⟨e, h⟩)
  · cases ts with
    | nil => exact ⟨_, .minus ht nofun h⟩
    | cons n ts =>
      -- A minus sign in front of an integer is read with it, so that the integer has the wider
      -- range.
      by_cases hn : n.kind = .integer
      · obtain ⟨rfl, hmem⟩ := eq_singleton_of_unary hn h
        exact hnegative ht (integer_mono (by decide) hmem)
      · exact ⟨_, .minus ht hn h⟩
  · exact hnegative ht hts
  · exact ⟨_, .plus ht h⟩
  · exact ⟨_, .primary h⟩

theorem rule_primary_le : rule spelled .primary ≤ spelled .primary := by
  rintro _ ((((hinteger | ⟨t, ht, hlength, rfl⟩) | ⟨t, ht, rfl⟩) | ⟨_, ⟨t, ht, rfl⟩, w, hw, rfl⟩)
    | ⟨_, ⟨_, ⟨p, hp, rfl⟩, ts, ⟨e, h⟩, rfl⟩, _, ⟨q, hq, rfl⟩, rfl⟩)
  · obtain ⟨t, value, ht, hvalue, rfl⟩ := @exists_of_mem_integer _ false hinteger
    exact ⟨_, .integer ht hvalue⟩
  · obtain ⟨c, hc⟩ := List.length_eq_one_iff.mp hlength
    exact ⟨_, .character ht hc⟩
  · exact ⟨_, .string ht⟩
  · rcases hw with rfl | ⟨_, ⟨_, ⟨p, hp, rfl⟩, as, has, rfl⟩, _, ⟨q, hq, rfl⟩, rfl⟩
    · exact ⟨_, .name ht⟩
    · obtain ⟨args, hargs⟩ := has q hq
      obtain ⟨a, ts, heq⟩ := List.exists_cons_of_ne_nil hargs.ne_nil
      dsimp only
      rw [List.append_assoc, heq]
      rw [heq] at hargs
      exact ⟨_, .call ht hp hargs⟩
  · dsimp only
    rw [List.append_assoc]
    exact ⟨_, .paren hp h hq⟩

theorem rule_args_le : rule spelled .args ≤ spelled .args := by
  -- What may stand between an argument and the closing parenthesis.
  let more : Language Token := {w | ∀ ts e q, Assignment ts e → q.kind = .rightParen →
    ∃ es, Arguments (ts ++ (w ++ [q])) es}
  have hmore : (word .comma * spelled .assign)∗ * opt (word .comma) ≤ more := by
    apply kstar_mul_le
    · rintro _ (rfl | ⟨c, hc, rfl⟩) ts e q h hq
      · exact ⟨_, .last h hq⟩
      · exact ⟨_, .more h hc (.none hq)⟩
    · rintro _ ⟨_, ⟨_, ⟨c, hc, rfl⟩, us, ⟨e', h'⟩, rfl⟩, w, hw, rfl⟩ ts e q h hq
      obtain ⟨es, hes⟩ := hw us e' q h' hq
      dsimp only
      rw [List.append_assoc, List.append_assoc]
      exact ⟨_, .more h hc hes⟩
  rw [rule, mul_assoc]
  rintro _ (rfl | ⟨ts, ⟨e, h⟩, w, hw, rfl⟩) q hq
  · exact ⟨_, .none hq⟩
  · dsimp only
    rw [List.append_assoc]
    exact hmore hw ts e q h hq

/-! ### Variables and statements -/

theorem exists_initialized (h : w ∈ opt (word .assign * spelled .assign)) :
    ∃ init, Initialized w init := by
  rcases h with rfl | ⟨_, ⟨t, ht, rfl⟩, ts, ⟨e, h⟩, rfl⟩
  · exact ⟨_, .absent⟩
  · exact ⟨_, .value ht h⟩

theorem rule_vardecl_le : rule spelled .vardecl ≤ spelled .vardecl := by
  -- What may stand behind a variable.
  let more : Language Token :=
    {w | ∀ d ts init, Initialized ts init → ∃ vars, Variables d (ts ++ w) vars}
  have hmore : (word .comma * spelled .declarator * opt (word .assign * spelled .assign))∗ * word
      .semicolon ≤ more := by
    apply kstar_mul_le
    · rintro _ ⟨s, hs, rfl⟩ d ts init hinit
      exact ⟨_, .last hinit hs⟩
    · rintro _ ⟨_, ⟨_, ⟨_, ⟨c, hc, rfl⟩, ns, ⟨next, hnext⟩, rfl⟩, is, his, rfl⟩, w, hw, rfl⟩
        d ts init hinit
      obtain ⟨init', hinit'⟩ := exists_initialized his
      obtain ⟨⟨second, others⟩, hvars⟩ := hw next is init' hinit'
      dsimp only
      simp only [List.append_assoc, List.cons_append, List.nil_append]
      exact ⟨_, .more hinit hc hnext hvars⟩
  rw [rule, mul_assoc]
  rintro _ ⟨_, ⟨_, ⟨ts, ⟨type, htype⟩, ns, ⟨d, hname⟩, rfl⟩, is, his, rfl⟩, w, hw, rfl⟩
  obtain ⟨init, hinit⟩ := exists_initialized his
  obtain ⟨⟨first, others⟩, hvars⟩ := hmore hw d is init hinit
  dsimp only
  rw [List.append_assoc, List.append_assoc]
  exact ⟨_, .mk htype hname hvars⟩

theorem rule_block_le : rule spelled .block ≤ spelled .block := by
  have hstmts : (spelled .stmt)∗ * word .rightBrace ≤
      ({w | ∃ stmts, Statements w stmts} : Language Token) := by
    apply kstar_mul_le
    · rintro _ ⟨q, hq, rfl⟩
      exact ⟨_, .nil hq⟩
    · rintro _ ⟨ts, ⟨stmt, h⟩, ts', ⟨stmts, hmore⟩, rfl⟩
      exact ⟨_, .cons h hmore⟩
  rw [rule, mul_assoc]
  rintro _ ⟨_, ⟨t, ht, rfl⟩, ts, hts, rfl⟩
  obtain ⟨stmts, h⟩ := hstmts hts
  exact ⟨t, ts, stmts, ht, h, rfl⟩

/-- An `else` behind an open statement goes to the last `if` in it that has none. -/
theorem exists_with_else {l : Token} {ts' : List Token} {elseBody : Stmt} (hl : l.kind = .kwElse)
    (helse : Statement ts' elseBody) {ts : List Token} {stmt : Stmt} :
    Statement ts stmt → stmt.endsOpen = true → ∃ stmt', Statement (ts ++ l :: ts') stmt'
  | @Statement.ifThen t cs bs cond body ht hcond hbody, _ => by
    rw [List.cons_append, List.append_assoc]
    cases hopen : body.endsOpen with
    | true =>
      obtain ⟨body', hbody'⟩ := exists_with_else hl helse hbody hopen
      exact ⟨_, .ifThen ht hcond hbody'⟩
    | false => exact ⟨_, .ifThenElse ht hcond hbody hopen hl helse⟩
  | .ifThenElse ht hcond hthen hclosed hl' helse', hopen => by
    obtain ⟨elseBody', helseBody'⟩ := exists_with_else hl helse helse' hopen
    simp only [List.cons_append, List.append_assoc]
    exact ⟨_, .ifThenElse ht hcond hthen hclosed hl' helseBody'⟩
  | .while ht hcond hbody, hopen => by
    obtain ⟨body', hbody'⟩ := exists_with_else hl helse hbody hopen
    rw [List.cons_append, List.append_assoc]
    exact ⟨_, .while ht hcond hbody'⟩
  | .ret _ _, hopen | .block _ _, hopen | .empty _, hopen | .vars _, hopen | .expr _ _, hopen =>
    nomatch hopen

theorem exists_conditional
    (h : w ∈ word .leftParen * (spelled .expr * (word .rightParen * l))) :
    ∃ cs cond bs, Condition cs cond ∧ bs ∈ l ∧ w = cs ++ bs := by
  obtain ⟨_, ⟨p, hp, rfl⟩, _, ⟨ts, ⟨e, h⟩, _, ⟨_, ⟨q, hq, rfl⟩, bs, hbs, rfl⟩, rfl⟩, rfl⟩ := h
  refine ⟨_, e, bs, .mk hp h hq, hbs, ?_⟩
  simp

/-- The grammar does not say which `if` an `else` belongs to; the phrase takes the last one that is
open. -/
theorem rule_stmt_le : rule spelled .stmt ≤ spelled .stmt := by
  simp only [rule, mul_assoc]
  rintro _ ((((((⟨_, ⟨t, ht, rfl⟩, w, hw, rfl⟩ | ⟨t, ts, stmts, ht, h, rfl⟩) | ⟨t, ht, rfl⟩) |
    ⟨decl, h⟩) | ⟨ts, ⟨e, h⟩, _, ⟨s, hs, rfl⟩, rfl⟩) | ⟨_, ⟨t, ht, rfl⟩, w, hw, rfl⟩) |
    ⟨_, ⟨t, ht, rfl⟩, w, hw, rfl⟩)
  · obtain ⟨_, rfl | ⟨e, h⟩, _, ⟨s, hs, rfl⟩, rfl⟩ := hw
    · exact ⟨_, .ret ht (.nothing hs)⟩
    · exact ⟨_, .ret ht (.value h hs)⟩
  · exact ⟨_, .block ht h⟩
  · exact ⟨_, .empty ht⟩
  · exact ⟨_, .vars h⟩
  · obtain ⟨t, ts', rfl⟩ := List.exists_cons_of_ne_nil h.ne_nil
    exact ⟨_, .expr h hs⟩
  · obtain ⟨cs, cond, bs, hcond, ⟨body, hbody⟩, rfl⟩ := exists_conditional hw
    show t :: (cs ++ bs) ∈ spelled .stmt
    exact ⟨_, .while ht hcond hbody⟩
  · obtain ⟨cs, cond, _, hcond, ⟨bs, ⟨body, hbody⟩, v, hv, rfl⟩, rfl⟩ := exists_conditional hw
    rcases hv with rfl | ⟨_, ⟨l, hl, rfl⟩, bs', ⟨elseBody, helse⟩, rfl⟩
    · show t :: (cs ++ (bs ++ [])) ∈ spelled .stmt
      rw [List.append_nil]
      exact ⟨_, .ifThen ht hcond hbody⟩
    -- The body takes the `else` if it can.
    · show t :: (cs ++ (bs ++ l :: bs')) ∈ spelled .stmt
      cases hopen : body.endsOpen with
      | true =>
        obtain ⟨body', hbody'⟩ := exists_with_else hl helse hbody hopen
        exact ⟨_, .ifThen ht hcond hbody'⟩
      | false => exact ⟨_, .ifThenElse ht hcond hbody hopen hl helse⟩

/-! ### External declarations -/

theorem headKind_ne_of_mem_notFirst {kind : TokenKind} (h : w ∈ notFirst kind)
    (hkind : kind ≠ .eof) : headKind w ≠ kind := by
  cases w with
  | nil => exact hkind.symm
  | cons t w => exact h t rfl

theorem rule_params_le : rule spelled .params ≤ spelled .params := by
  -- What may stand behind a parameter.
  let more : Language Token := {w | ∀ ts p, Parameter ts p → ∃ ps, ParameterList (ts ++ w) ps}
  have hmore : (word .comma * spelled .type * spelled .declarator)∗ ≤ more := by
    apply kstar_le_of_mul_le_right
    · rintro _ rfl ts p h
      rw [List.append_nil]
      exact ⟨_, .last h⟩
    · rintro _ ⟨_, ⟨_, ⟨_, ⟨c, hc, rfl⟩, us, ⟨type, htype⟩, rfl⟩, ns, ⟨d, hname⟩, rfl⟩, w,
        hw, rfl⟩ ts p h
      obtain ⟨ps, hps⟩ := hw _ _ (.mk htype hname)
      dsimp only
      rw [List.append_assoc, List.append_assoc, List.cons_append, List.nil_append,
        ← List.append_assoc us]
      exact ⟨_, .more h hc hps⟩
  rintro _ ((rfl | ⟨v, hv, rfl⟩) | ⟨⟨_, ⟨ts, ⟨type, htype⟩, ns, ⟨d, hname⟩, rfl⟩, w, hw,
    rfl⟩, hfirst⟩) q hq
  · exact ⟨_, .none hq⟩
  · exact ⟨_, .void hv hq⟩
  · obtain ⟨ps, hps⟩ := hmore hw _ _ (.mk htype hname)
    exact ⟨_, .some hps (headKind_ne_of_mem_notFirst hfirst nofun) hq⟩

theorem rule_external_le : rule spelled .external ≤ spelled .external := by
  simp only [rule, mul_assoc]
  rintro _ (⟨ts, ⟨type, htype⟩, _,
    ⟨ns, ⟨d, hname⟩, _, ⟨_, ⟨p, hp, rfl⟩, _, ⟨ps, hps, _, ⟨_, ⟨q, hq, rfl⟩, w, hw, rfl⟩, rfl⟩, rfl⟩,
    rfl⟩, rfl⟩ | ⟨decl, h⟩)
  · obtain ⟨params, hparams⟩ := hps q hq
    obtain ⟨a, ps', heq⟩ := List.exists_cons_of_ne_nil hparams.ne_nil
    have htokens : ps ++ ([q] ++ w) = a :: (ps' ++ w) := by
      rw [← List.append_assoc, heq, List.cons_append]
    show ts ++ (ns ++ p :: (ps ++ ([q] ++ w))) ∈ spelled .external
    rw [htokens]
    rw [heq] at hparams
    rcases hw with ⟨b, bs, stmts, hb, hbody, rfl⟩ | ⟨s, hs, rfl⟩
    · exact ⟨_, .definition htype hname hp hparams hb hbody⟩
    · exact ⟨_, .prototype htype hname hp hparams hs⟩
  · exact ⟨_, .vars h⟩

theorem rule_program_le : rule spelled .program ≤ spelled .program := by
  apply kstar_le_of_mul_le_right
  · rintro _ rfl
    exact ⟨_, .nil⟩
  · rintro _ ⟨ts, ⟨e, h⟩, ts', ⟨es, hmore⟩, rfl⟩
    exact ⟨_, .cons h hmore⟩

/-- What a rule puts together from phrases is a phrase, so every derivation ends in one. -/
theorem rule_spelled_le (n : Nonterminal) : rule spelled n ≤ spelled n := by
  cases n with
  | program => exact rule_program_le
  | external => exact rule_external_le
  | vardecl => exact rule_vardecl_le
  | type => exact rule_type_le
  | declarator => exact rule_declarator_le
  | params => exact rule_params_le
  | block => exact rule_block_le
  | stmt => exact rule_stmt_le
  | expr => exact le_rfl
  | assign => exact rule_assign_le
  | binary => exact rule_binary_le
  | unary => exact rule_unary_le
  | primary => exact rule_primary_le
  | args => exact rule_args_le

theorem derives_program_iff : Derives .program ts ↔ ∃ es, Members ts es := by
  constructor
  · intro h
    exact language_le rule_spelled_le .program h
  · rintro ⟨es, h⟩
    exact mem_program h

end CSubset.Grammar

namespace CSubset

open Grammar

/-- A text is a program exactly if its tokens are derived from the grammar. -/
theorem parse_succeeds_iff_derives (generation : UInt32) (path : String) (text : List Char) :
    (∃ file, File.parse generation path text = .ok file) ↔
      Derives .program (TokenStream.ofText text).tokens := by
  rw [derives_program_iff]
  simp only [File.parse_eq_ok_iff, Surface.Program.ofText_eq_ok_iff]
  constructor
  · rintro ⟨_, program, ⟨hmembers, _⟩, _⟩
    exact ⟨program.externals, hmembers⟩
  · rintro ⟨es, hmembers⟩
    exact ⟨_, ⟨_, es⟩, ⟨hmembers, rfl⟩, rfl⟩

end CSubset
