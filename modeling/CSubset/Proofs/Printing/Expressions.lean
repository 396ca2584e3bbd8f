import CSubset.Proofs.Printing.Lexing
import CSubset.Proofs.Surface.Phrases
import CSubset.Proofs.Tree.Parsed

/-!
# Reading back printed expressions

The tokens of a printed expression are a phrase, and the tree of the syntax that the phrase spells
has the shape of the expression (`printed_expression`).

A chain of operands is grouped level by level. Operators below some level do not occur in what is
printed for a context (`ChainAt`), so two chains can be joined by an operator of that level: the
left one has operators of this level and higher, the right one has operators of higher levels only
(`ChainAt.join`).
-/

namespace CSubset.Printing

open Surface

variable {level : Nat} {k : Link} {links links' : List Link}

/-! ## Grouping -/

/-- The levels from one on, loosest first. -/
def levelsFrom (level : Nat) : List Nat := List.range' level (10 - level)

theorem levelsFrom_of_lt (h : level < 10) : levelsFrom level = level :: levelsFrom (level + 1) := by
  have hcount : 10 - level = (10 - (level + 1)) + 1 := by omega
  rw [levelsFrom, hcount, List.range'_succ]
  rfl

theorem group_nil (levels : List Nat) (first : Expr) : Link.group levels first [] = first := by
  induction levels with
  | nil => rfl
  | cons level levels ih => exact ih

theorem cut_of_lt (h : ∀ k ∈ links, level < k.op.level) : Link.cut level links = (links, []) := by
  induction links with
  | nil => rfl
  | cons k links ih =>
    obtain ⟨hk, hlinks⟩ := List.forall_mem_cons.mp h
    rw [Link.cut, ih hlinks]
    exact if_neg (by omega)

/-- The last operator of the level that a chain is cut at is followed by tighter ones. -/
theorem cut_append (links : List Link) (hk : k.op.level = level)
    (h : ∀ j ∈ links', level < j.op.level) :
    Link.cut level (links ++ k :: links') =
      ((Link.cut level links).1, (Link.cut level links).2 ++ [(k, links')]) := by
  induction links with
  | nil =>
    show Link.cut level (k :: links') = ([], [(k, links')])
    rw [Link.cut, cut_of_lt h]
    exact if_pos hk
  | cons j links ih =>
    rw [List.cons_append, Link.cut, ih, Link.cut]
    dsimp only
    split <;> rfl

theorem group_loosen (hlevel : level < 10) (first : Expr) (h : ∀ k ∈ links, level < k.op.level) :
    Link.group (levelsFrom level) first links = Link.group (levelsFrom (level + 1))
      first links := by
  rw [levelsFrom_of_lt hlevel, Link.group, cut_of_lt h]
  rfl

theorem group_append (hlevel : level < 10) (first : Expr) (links : List Link)
    (hk : k.op.level = level) (h : ∀ j ∈ links', level < j.op.level) :
    Link.group (levelsFrom level) first (links ++ k :: links') =
      k.join (Link.group (levelsFrom level) first links)
        (Link.group (levelsFrom (level + 1)) k.operand links') := by
  rw [levelsFrom_of_lt hlevel, Link.group, cut_append links hk h, Link.group]
  dsimp only
  rw [List.foldl_append]
  rfl

theorem level_lt (op : Operator) : op.level < 10 := by
  rcases op with (_ | _ | _ | _ | _) | (_ | _ | _ | _ | _) | (_ | _ | _ | _ | _ | _) | (_ | _) <;>
    decide

/-! ## Chains -/

/-- A chain without operators below the level. -/
inductive ChainAt (level : Nat) : List Token → Expr → Prop
  | mk {us vs : List Token} {first : Expr} {links : List Link} (hfirst : Phrase.Unary us first)
    (hlinks : Phrase.Links vs links) (hlevels : ∀ k ∈ links, level ≤ k.op.level) :
    ChainAt level (us ++ vs) (Link.group (levelsFrom level) first links)

namespace ChainAt

variable {level : Nat} {ts : List Token} {e : Expr}

theorem of_unary (h : Phrase.Unary ts e) (level : Nat) : ChainAt level ts e := by
  have hchain : ChainAt level (ts ++ []) (Link.group (levelsFrom level) e []) := .mk h .nil nofun
  rwa [List.append_nil, group_nil] at hchain

theorem loosen {level' : Nat} (h : ChainAt level ts e) (hle : level' ≤ level)
    (hlevel : level ≤ 10) : ChainAt level' ts e := by
  induction level, hle using Nat.le_induction with
  | base => exact h
  | succ level hle ih =>
    refine ih ?_ (by omega)
    obtain ⟨hfirst, hlinks, hlevels⟩ := h
    rw [← group_loosen (by omega) _ hlevels]
    exact .mk hfirst hlinks fun k hk => Nat.le_of_succ_le (hlevels k hk)

theorem chain (h : ChainAt 0 ts e) : Phrase.Chain ts e := by
  obtain ⟨hfirst, hlinks, -⟩ := h
  exact .mk hfirst hlinks

end ChainAt

theorem links_append {vs ws : List Token} {links more : List Link} :
    Phrase.Links vs links → Phrase.Links ws more → Phrase.Links (vs ++ ws) (links ++ more)
  | .nil, h => h
  | .cons ht hoperand hlinks, h => by
    rw [List.cons_append, List.cons_append, List.append_assoc]
    exact .cons ht hoperand (links_append hlinks h)

/-- Two chains that are joined by an operator of the level. -/
theorem ChainAt.join {op : Operator} {t : Token} {us vs : List Token} {left right : Expr}
    (hleft : ChainAt op.level us left) (ht : t.kind.operator? = some op)
    (hright : ChainAt (op.level + 1) vs right) :
    ChainAt op.level (us ++ t :: vs) (.binary t.pos op left right) := by
  cases hleft with
  | @mk us vs first links hfirst hlinks hlevels =>
    cases hright with
    | @mk us' vs' first' links' hfirst' hlinks' hlevels' =>
      have hgroup := group_append (level_lt op) first links (k := ⟨t.pos, op, first'⟩) rfl hlevels'
      have hall : ∀ k ∈ links ++ ⟨t.pos, op, first'⟩ :: links', op.level ≤ k.op.level := by
        intro k hk
        rcases List.mem_append.mp hk with hk | hk
        · exact hlevels k hk
        · rcases List.mem_cons.mp hk with rfl | hk
          · exact Nat.le_refl _
          · exact Nat.le_of_succ_le (hlevels' k hk)
      have hjoined := ChainAt.mk hfirst (links_append hlinks (.cons ht hfirst' hlinks')) hall
      rw [hgroup] at hjoined
      rw [List.append_assoc]
      exact hjoined

/-- What may stand in a context: any expression, or a chain without operators that bind too
loosely. -/
def InContext : Nat → List Token → Expr → Prop
  | 0, ts, e => Phrase.Assignment ts e
  | level + 1, ts, e => ChainAt level ts e

namespace InContext

variable {context : Nat} {ts : List Token} {e : Expr}

theorem of_chainAt {level : Nat} (h : ChainAt level ts e) (hcontext : context ≤ level + 1)
    (hlevel : level ≤ 10) : InContext context ts e := by
  cases context with
  | zero => exact .value (h.loosen (Nat.zero_le level) hlevel).chain
  | succ context => exact h.loosen (Nat.le_of_succ_le_succ hcontext) hlevel

theorem of_unary (h : Phrase.Unary ts e) (hcontext : context ≤ 11) : InContext context ts e :=
  of_chainAt (.of_unary h 10) hcontext (Nat.le_refl 10)

theorem paren (h : Phrase.Assignment ts e) (hcontext : context ≤ 11) :
    InContext context (between .leftParen ts .rightParen) e :=
  of_unary (.primary (.paren rfl h rfl)) hcontext

end InContext

section Shapes

variable {σ τ : Type}

theorem shape_seq (l : σ) (form : SeqForm) (ts : List (Tree σ)) :
    Tree.shape (.seq l form (ts.map some)) = .seq () form ((ts.map Tree.shape).map some) := by
  have hitems : Tree.mapItems (fun _ => ()) (ts.map some) = (ts.map Tree.shape).map some := by
    induction ts with
    | nil => rfl
    | cons t ts ih => exact congrArg₂ _ rfl ih
  exact congrArg _ hitems

/-- The syntax has the tree `t`, but for identities and positions. -/
def Builds (t : Tree σ) (x : Alloc Node) : Prop := Yields (fun n => n.shape = t.shape) x

/-- The syntax has the trees `ts`, but for identities and positions. -/
def BuildsAll (ts : List (Tree σ)) (x : Alloc (List Node)) : Prop :=
  Yields (fun ns => ns.map Tree.shape = ts.map Tree.shape) x

theorem builds_withItems {pos : Pos} {form : SeqForm} {items : Alloc (List Node)}
    {ts : List (Tree σ)} (l : σ) (h : BuildsAll ts items) :
    Builds (.seq l form (ts.map some)) (withItems pos form items) := by
  refine yields_withItems_of h fun stamp ns _ hns => ?_
  rw [shape_seq, shape_seq, hns]

theorem BuildsAll.singleton {t : Tree σ} {x : Alloc Node} (h : Builds t x) :
    BuildsAll [t] (do return [← x]) :=
  h.bind fun _ hn => .pure (congrArg (fun s => [s]) hn)

theorem BuildsAll.append {ts ts' : List (Tree σ)} {x y : Alloc (List Node)} (hx : BuildsAll ts x)
    (hy : BuildsAll ts' y) : BuildsAll (ts ++ ts') (do let ns ← x let ms ← y return ns ++ ms) := by
  refine hx.bind fun ns hns => hy.bind fun ms hms => .pure ?_
  rw [List.map_append, List.map_append, hns, hms]

end Shapes

/-! ## Expressions -/

theorem spelled_between {left right : TokenKind} {ts : List Token} (hts : ∀ t ∈ ts, Spelled t)
    (hleft : left ∈ TokenKind.doubleSymbols ++ TokenKind.singleSymbols)
    (hright : right ∈ TokenKind.doubleSymbols ++ TokenKind.singleSymbols) :
    ∀ t ∈ between left ts right, Spelled t := by
  refine List.forall_mem_cons.mpr ⟨.symbol hleft, List.forall_mem_append.mpr ⟨hts, ?_⟩⟩
  exact List.forall_mem_singleton.mpr (.symbol hright)

/-- The digits of a number are read back as this number, the least one too. -/
theorem integerValue?_toInt (value : Int32) :
    Parser.integerValue? (value.toInt < 0) (toString value.toInt.natAbs) = some value := by
  have hmin := Int32.le_toInt value
  have hmax := Int32.toInt_lt value
  unfold Parser.integerValue?
  rw [decimalValue?_toString]
  by_cases hneg : value.toInt < 0
  · have hle : value.toInt.natAbs ≤ 0x80000000 := by omega
    have habs : -(value.toInt.natAbs : Int) = value.toInt := by omega
    rw [decide_eq_true hneg]
    show (do guard (value.toInt.natAbs ≤ 0x80000000); return Int32.ofInt (-value.toInt.natAbs)) =
      some value
    rw [habs, Int32.ofInt_toInt, guard, if_pos hle]
    rfl
  · have hlt : value.toInt.natAbs < 0x80000000 := by omega
    have habs : (value.toInt.natAbs : Int) = value.toInt := by omega
    rw [decide_eq_false hneg]
    show (do guard (value.toInt.natAbs < 0x80000000); return Int32.ofInt value.toInt.natAbs) =
      some value
    rw [habs, Int32.ofInt_toInt, guard, if_pos hlt]
    rfl

section Expressions

variable {σ : Type} {context rank : Nat} {ts : List Token}

/-- The tokens are spelled well, and they are a phrase whose syntax satisfies `P`. -/
def ReadsBack {α : Type} (Phrase : List Token → α → Prop) (P : α → Prop) (ts : List Token) : Prop :=
  (∀ t ∈ ts, Spelled t) ∧ ∃ a, Phrase ts a ∧ P a

/-- What is printed for the tree in this context is read back as the tree. -/
def Printed (context : Nat) (t : Tree σ) : Prop :=
  ReadsBack (InContext context) (fun e => Builds t e.build) (exprTokens context t)

/-- A negative number is printed with its sign, which may stand in every context. -/
theorem printed_int (context : Nat) (hcontext : context ≤ 11) (l : σ) (value : Int32) :
    Printed context (.leaf l (.intConst value)) := by
  have hvalue := integerValue?_toInt value
  have hbuild : Builds (.leaf l (.intConst value)) (Expr.build (.int .unknown value)) :=
    yields_allocAt fun _ => rfl
  show ReadsBack (InContext context) _ (intTokens value)
  unfold intTokens
  split
  next hneg =>
    rw [decide_eq_true hneg] at hvalue
    refine ⟨List.forall_mem_cons.mpr
      ⟨.symbol (by decide), List.forall_mem_singleton.mpr (.numeral _)⟩, _, ?_, hbuild⟩
    exact .of_unary (.negative (t := fixed .minus) rfl rfl hvalue) hcontext
  next hneg =>
    rw [decide_eq_false hneg] at hvalue
    refine ⟨List.forall_mem_singleton.mpr (.numeral _), _, ?_, hbuild⟩
    exact .of_unary (.primary (.integer (t := numeral _) rfl hvalue)) hcontext

/-- An operand that is printed for a context where it may stand, and else between parentheses. -/
theorem inContext_or_paren {e : Expr} (hcontext : context ≤ 11)
    (h : ∀ c ≤ rank, InContext c ts e) :
    InContext context (if context ≤ rank then ts else between .leftParen ts .rightParen) e := by
  split
  next hle => exact h context hle
  next => exact .paren (h 0 (Nat.zero_le rank)) hcontext

theorem spelled_or_paren (h : ∀ t ∈ ts, Spelled t) :
    ∀ t ∈ (if context ≤ rank then ts else between .leftParen ts .rightParen), Spelled t := by
  split
  · exact h
  · exact spelled_between h (by decide) (by decide)

theorem operator?_binaryForm (op : Operator) : (binaryForm op).operator? = some op := by
  cases op <;> rfl

theorem operator?_symbol (op : Operator) : op.symbol.operator? = some op := by
  rcases op with (_ | _ | _ | _ | _) | (_ | _ | _ | _ | _) | (_ | _ | _ | _ | _ | _) | (_ | _) <;>
    rfl

theorem symbol_mem (op : Operator) :
    op.symbol ∈ TokenKind.doubleSymbols ++ TokenKind.singleSymbols := by
  rcases op with (_ | _ | _ | _ | _) | (_ | _ | _ | _ | _) | (_ | _ | _ | _ | _ | _) | (_ | _) <;>
    decide

theorem builds_binary {l : σ} {form : BinaryForm} {left right : Tree σ} {x y : Alloc Node}
    {pos : Pos} (hleft : Builds left x) (hright : Builds right y) :
    Builds (.binary l form (some left) (some right)) (do
      let a ← x
      let b ← y
      Arena.allocAt pos (.binary · form (some a) (some b))) := by
  refine hleft.bind fun a ha => hright.bind fun b hb => yields_allocAt fun _ => ?_
  exact congrArg₂ (fun s t => Tree.binary () form (some s) (some t)) ha hb

/-- Operands are printed in the context of their side, so that grouping gives the tree back. -/
theorem printed_operation (hcontext : context ≤ 11) (l : σ) (op : Operator) {left right : Tree σ}
    (hleft : ∀ c ≤ 11, Printed c left) (hright : ∀ c ≤ 11, Printed c right) :
    Printed context (.binary l (binaryForm op) (some left) (some right)) := by
  have hlevel := level_lt op
  obtain ⟨hspelled, e, hphrase, hbuild⟩ := hleft (op.level + 1) (by omega)
  obtain ⟨hspelled', e', hphrase', hbuild'⟩ := hright (op.level + 2) (by omega)
  have htokens : exprTokens context (.binary l (binaryForm op) (some left) (some right)) =
      let ts := exprTokens (op.level + 1) left ++ fixed op.symbol :: exprTokens (op.level + 2) right
      if context ≤ op.level + 1 then ts else between .leftParen ts .rightParen := by
    simp only [exprTokens, operandTokens, BinaryForm.leftContext, BinaryForm.rightContext,
      BinaryForm.symbol, BinaryForm.rank, operator?_binaryForm]
  have hchain : ChainAt op.level _ (.binary .unknown op e e') :=
    ChainAt.join (t := fixed op.symbol) hphrase (operator?_symbol op) hphrase'
  rw [Printed, htokens]
  refine ⟨spelled_or_paren ?_, _, inContext_or_paren hcontext fun c hc => .of_chainAt hchain hc
    (by omega), ?_⟩
  · exact List.forall_mem_append.mpr
      ⟨hspelled, List.forall_mem_cons.mpr ⟨.symbol (symbol_mem op), hspelled'⟩⟩
  · exact builds_binary hbuild hbuild'

theorem printed_assign (hcontext : context ≤ 11) (l : σ) {left right : Tree σ}
    (hleft : ∀ c ≤ 11, Printed c left) (hright : ∀ c ≤ 11, Printed c right) :
    Printed context (.binary l .assign (some left) (some right)) := by
  obtain ⟨hspelled, e, hphrase, hbuild⟩ := hleft 1 (by omega)
  obtain ⟨hspelled', e', hphrase', hbuild'⟩ := hright 0 (by omega)
  have htokens : exprTokens context (.binary l .assign (some left) (some right)) =
      let ts := exprTokens 1 left ++ fixed .assign :: exprTokens 0 right
      if context ≤ 0 then ts else between .leftParen ts .rightParen := rfl
  have hassign : Phrase.Assignment _ (.assign .unknown e e') :=
    .assign (t := fixed .assign) (ChainAt.chain hphrase) rfl hphrase'
  rw [Printed, htokens]
  refine ⟨spelled_or_paren ?_, .assign .unknown e e', inContext_or_paren hcontext
    fun c hc => ?_, ?_⟩
  · exact List.forall_mem_append.mpr
      ⟨hspelled, List.forall_mem_cons.mpr ⟨.symbol (by decide), hspelled'⟩⟩
  · obtain rfl := Nat.le_zero.mp hc
    exact hassign
  · exact builds_binary hbuild hbuild'

/-! ## Calls -/

theorem argListTokens_map (args : List (Tree σ)) :
    argListTokens (args.map some) = args.map (exprTokens 0) := by
  induction args with
  | nil => rfl
  | cons a args ih => exact congrArg₂ _ rfl ih

theorem spelled_separated {lists : List (List Token)} (h : ∀ ts ∈ lists, ∀ t ∈ ts, Spelled t) :
    ∀ t ∈ separated lists, Spelled t := by
  fun_induction separated lists with
  | case1 => nofun
  | case2 ts => exact h ts List.mem_cons_self
  | case3 ts more _ ih =>
    obtain ⟨hts, hmore⟩ := List.forall_mem_cons.mp h
    exact List.forall_mem_append.mpr ⟨hts, List.forall_mem_cons.mpr ⟨.symbol (by decide), ih hmore⟩⟩

/-- Arguments need no parentheses, since no comma is an operator. -/
theorem printed_arguments {args : List (Tree σ)} (h : ∀ a ∈ args, Printed 0 a) :
    ∃ es, Phrase.Arguments (separated (args.map (exprTokens 0)) ++ [fixed .rightParen]) es ∧
      BuildsAll args (Expr.buildAll es) := by
  induction args with
  | nil => exact ⟨[], .none rfl, .pure rfl⟩
  | cons a args ih =>
    obtain ⟨⟨-, e, hphrase, hbuild⟩, hargs⟩ := List.forall_mem_cons.mp h
    obtain ⟨es, harguments, hbuilds⟩ := ih hargs
    cases args with
    | nil =>
      exact ⟨[e], .last hphrase rfl, hbuild.bind fun n hn => .pure (congrArg (fun s => [s]) hn)⟩
    | cons b args =>
      refine ⟨e :: es, ?_, hbuild.bind fun n hn => hbuilds.bind fun ns hns => .pure
        (congrArg₂ _ hn hns)⟩
      have hmore := Phrase.Arguments.more (c := fixed .comma) hphrase rfl harguments
      rw [← List.cons_append, ← List.append_assoc] at hmore
      exact hmore

theorem printed_call (hcontext : context ≤ 11) (l l' : σ) {callee : String}
    (hcallee : IsIdentifier callee) {args : List (Tree σ)} (hargs : ∀ a ∈ args, Printed 0 a) :
    Printed context (.unary l (.call callee) (some (.seq l' .parameters (args.map some)))) := by
  have htokens : exprTokens context
      (.unary l (.call callee) (some (.seq l' .parameters (args.map some)))) = named callee ::
      between .leftParen (separated (args.map (exprTokens 0))) .rightParen := by
    rw [← argListTokens_map]
    rfl
  obtain ⟨es, harguments, hbuilds⟩ := printed_arguments hargs
  obtain ⟨a, rest, hcons⟩ := List.exists_cons_of_ne_nil harguments.ne_nil
  rw [Printed, htokens]
  refine ⟨List.forall_mem_cons.mpr ⟨.name hcallee, spelled_between (spelled_separated ?_)
    (by decide) (by decide)⟩, .call .unknown callee a.pos es, ?_, ?_⟩
  · exact List.forall_mem_map.mpr fun a ha => (hargs a ha).1
  · rw [between, hcons]
    rw [hcons] at harguments
    exact .of_unary
      (.primary (.call (t := named callee) (p := fixed .leftParen) rfl rfl harguments)) hcontext
  · refine (builds_withItems l' hbuilds).bind fun list hlist => yields_allocAt fun _ => ?_
    exact congrArg (fun s => Tree.unary () (.call callee) (some s)) hlist

/-- A printed expression is read back in every context. -/
theorem printed_expression {t : Tree σ} (h : Expression IsText t) :
    ∀ context ≤ 11, Printed context t := by
  induction h with
  | int l value => exact fun context hcontext => printed_int context hcontext l value
  | str l hcontents =>
    intro context hcontext
    obtain ⟨text, rfl⟩ := hcontents
    rw [Printed, exprTokens, textOf_encode]
    refine ⟨List.forall_mem_singleton.mpr (.quoted text), .str .unknown text, ?_,
      yields_allocAt fun _ => rfl⟩
    exact .of_unary (.primary (.string (t := quoted text) rfl)) hcontext
  | @name l x hx =>
    intro context hcontext
    refine ⟨List.forall_mem_singleton.mpr (.name hx), .name .unknown x, ?_,
      yields_allocAt fun _ => rfl⟩
    exact .of_unary (.primary (.name (t := named x) rfl)) hcontext
  | call l l' hcallee hargs ih =>
    exact fun context hcontext => printed_call hcontext l l' hcallee fun a ha => ih a ha 0
      (Nat.zero_le 11)
  | operation l op hleft hright ihl ihr =>
    exact fun context hcontext => printed_operation hcontext l op ihl ihr
  | assign l hleft hright ihl ihr => exact fun context hcontext => printed_assign hcontext l ihl ihr

end Expressions

end CSubset.Printing
