import CSubset.Proofs.Success
import CSubset.Proofs.Surface.Acceptance
import CSubset.Proofs.Surface.Kinds
import CSubset.Proofs.Surface.Nesting
import CSubset.Proofs.Tree.Outline

/-!
# Calls

Each call in the tree of a text is written as a name and a list of arguments between parentheses,
and each name in front of an opening parenthesis is that of a call or of a function that is declared
(`calls_spelled`). Between the arguments stand commas. One more comma may stand behind the last
argument, so that the commas are one less than the arguments, or as many.
-/

namespace CSubset

open Surface Surface.Phrase
open Surface.Parser (headKind)

variable {args : List Expr} {ts : List Token}

/-! ## Lists of arguments -/

def endsInComma (ts : List Token) : Bool := ts.getLast?.any (·.kind = .comma)

/-- The commas outside of parentheses. -/
def commas? (ts : List Token) : Option Nat := (outside? 0 ts).map (·.countP (·.kind = .comma))

namespace Grammar

open Computability

/-- Arguments with commas between them and none behind the last one. -/
def separated : Language Token := opt (language .assign * (word .comma * language .assign)∗)

/-- What is not empty and does not end in a comma. -/
def unfinished : Language Token := {w | w ≠ [] ∧ endsInComma w = false}

theorem assign_le_unfinished : language .assign ≤ unfinished := by
  intro w hw
  obtain ⟨e, he⟩ : ∃ e, Assignment w e := language_le rule_spelled_le .assign hw
  refine ⟨he.ne_nil, ?_⟩
  rcases List.eq_nil_or_concat w with rfl | ⟨ts, t, rfl⟩
  · rfl
  · rw [List.concat_eq_append] at he ⊢
    simpa [endsInComma] using he.compact.last_ne

theorem mul_unfinished_le (l : Language Token) : l * unfinished ≤ unfinished := by
  rintro _ ⟨v, -, w, ⟨hne, hw⟩, rfl⟩
  refine ⟨by simp [hne], ?_⟩
  rw [endsInComma, List.getLast?_append_of_ne_nil _ hne]
  exact hw

theorem separated_le : separated ≤ {w | endsInComma w = false} := by
  rintro w (rfl | hw)
  · rfl
  have hnext : unfinished * (word .comma * language .assign) ≤ unfinished := by
    rw [← mul_assoc]
    exact (mul_le_mul_right assign_le_unfinished _).trans (mul_unfinished_le _)
  have hall : language .assign * (word .comma * language .assign)∗ ≤ unfinished :=
    (mul_le_mul_left assign_le_unfinished _).trans (mul_kstar_le le_rfl hnext)
  exact (hall hw).2

end Grammar

/-- The tokens `inner` stand between the parentheses of a call with `count` arguments. -/
structure ArgumentList (inner : List Token) (count : Nat) : Prop where
  commas : commas? inner = some (if endsInComma inner then count else count - 1)
  none : count = 0 ↔ inner = []
  /-- The commas are as the grammar of separated arguments has them, except where one is behind the
  last argument. -/
  separated : inner ∈ Grammar.separated ↔ endsInComma inner = false

namespace ArgumentList

open Grammar

variable {ts : List Token}

theorem nil : ArgumentList [] 0 where
  commas := rfl
  none := by simp
  separated := ⟨fun _ => rfl, fun _ => nil_mem_opt _⟩

theorem commas?_of_compact (h : Compact ts) : commas? ts = some 0 := by
  obtain ⟨os, hos, hcommas⟩ := h.nested
  rw [commas?, hos, Option.map_some, Option.some.injEq, List.countP_eq_zero]
  simpa using hcommas

theorem commas?_append {us : List Token} {c : Token} (h : Compact ts) (hc : c.kind = .comma) :
    commas? (ts ++ c :: us) = (commas? us).map (· + 1) := by
  obtain ⟨os, hos, hcommas⟩ := h.nested
  have hzero : os.countP (·.kind = .comma) = 0 := List.countP_eq_zero.mpr (by simpa using hcommas)
  have hcomma : outside? 0 (c :: us) = (outside? 0 us).map (c :: ·) := by
    simp [outside?, depthAfter?, kept, hc]
  rw [commas?, outside?_append hos, hcomma, commas?, Option.map_map, Option.map_map, Option.map_map]
  congr 1
  funext os'
  simp [hzero, hc]

theorem single {e : Expr} (h : Assignment ts e) : ArgumentList ts 1 where
  commas := by simp [commas?_of_compact h.compact, (assign_le_unfinished (mem_assign h)).2]
  none := by simp [h.ne_nil]
  separated := by
    refine ⟨fun _ => (assign_le_unfinished (mem_assign h)).2, fun _ => mem_opt_of_mem ?_⟩
    rw [← List.append_nil ts]
    exact Language.append_mem_mul (mem_assign h) (Language.nil_mem_kstar _)

theorem cons {ts inner : List Token} {e : Expr} {c : Token} {count : Nat} (h : Assignment ts e)
    (hc : c.kind = .comma) (hmore : ArgumentList inner count) :
    ArgumentList (ts ++ c :: inner) (count + 1) := by
  have hlast : endsInComma (ts ++ c :: inner) = (inner.isEmpty || endsInComma inner) := by
    cases inner with
    | nil => simp [endsInComma, hc]
    | cons t inner =>
      rw [endsInComma, List.getLast?_append_of_ne_nil _ (by simp), List.getLast?_cons_cons]
      rfl
  refine ⟨?_, by simp, fun hsep => separated_le hsep, fun hends => ?_⟩
  · rw [commas?_append h.compact hc, hmore.commas, hlast, Option.map_some, Option.some.injEq]
    cases inner with
    | nil => simp [hmore.none.mpr rfl, endsInComma]
    | cons t inner =>
      have hcount : count ≠ 0 := by simp [hmore.none]
      cases endsInComma (t :: inner) <;> simp
      omega
  · rw [hlast, Bool.or_eq_false_iff, List.isEmpty_eq_false_iff] at hends
    rcases hmore.separated.mpr hends.2 with rfl | ⟨first, hfirst, others, hothers, rfl⟩
    · exact absurd rfl hends.1
    · refine mem_opt_of_mem (Language.append_mem_mul (mem_assign h) ?_)
      exact append_mem_kstar (cons_mem_word_mul hc hfirst) hothers

end ArgumentList

/-- The arguments of a call are a list of arguments and the parenthesis that closes it. -/
theorem argumentList_of_arguments (h : Arguments ts args) :
    ∃ inner q, ts = inner ++ [q] ∧ q.kind = .rightParen ∧ ArgumentList inner args.length := by
  induction args generalizing ts with
  | nil =>
    cases h with
    | none hq => exact ⟨[], _, rfl, hq, .nil⟩
  | cons e args ih =>
    cases h with
    | last h hq => exact ⟨_, _, rfl, hq, .single h⟩
    | more h hc hmore =>
      obtain ⟨inner, q, rfl, hq, hlist⟩ := ih hmore
      exact ⟨_ ++ _ :: inner, q, by simp, hq, .cons h hc hlist⟩

/-! ## Calls and signatures in a tree

Those of a tree are the ones of its parts, and the tree itself if it is one. -/

namespace Tree

variable {σ : Type}

/-- Calls, and the signatures of functions, which look like them. -/
def isApplication : Tree σ → Bool
  | .unary _ (.call _) _ | .unary _ (.signature _) _ => true
  | _ => false

/-- The calls and signatures. -/
def applications (t : Tree σ) : List (Tree σ) := t.postorder.filter isApplication

theorem applications_leaf (l : σ) (form : Leaf) : (Tree.leaf l form).applications = [] := rfl

theorem applications_seq (l : σ) (form : SeqForm) (ts : List (Tree σ)) :
    (Tree.seq l form (ts.map some)).applications = ts.flatMap applications := by
  rw [applications, postorder, List.filter_append, postorderItems_eq, List.flatMap_map,
    List.filter_flatMap]
  exact List.append_nil _

theorem applications_call (l : σ) (callee : String) (args : Tree σ) :
    (Tree.unary l (.call callee) (some args)).applications = args.applications ++
      [.unary l (.call callee) (some args)] := by
  simp [applications, postorder, postorderChild, isApplication]

theorem applications_signature (l : σ) (name : String) (params : Tree σ) :
    (Tree.unary l (.signature name) (some params)).applications =
      params.applications ++ [.unary l (.signature name) (some params)] := by
  simp [applications, postorder, postorderChild, isApplication]

theorem applications_ret (l : σ) (child : Option (Tree σ)) :
    (Tree.unary l .ret child).applications = child.toList.flatMap applications := by
  cases child <;> simp [applications, postorder, postorderChild, isApplication]

theorem applications_binary (l : σ) (form : BinaryForm) (left right : Tree σ) :
    (Tree.binary l form (some left) (some right)).applications = left.applications ++
      right.applications := by
  simp [applications, postorder, postorderChild, isApplication]

theorem applications_ternary (l : σ) (form : TernaryForm) (first second third : Tree σ) :
    (Tree.ternary l form (some first) (some second) (some third)).applications =
      first.applications ++ (second.applications ++ third.applications) := by
  simp [applications, postorder, postorderChild, isApplication]

end Tree

namespace Surface

theorem Link.cut_flatten (level : Nat) (links : List Link) :
    links = (Link.cut level links).1 ++ (Link.cut level links).2.flatMap fun piece =>
      piece.1 :: piece.2 := by
  induction links with
  | nil => rfl
  | cons l links ih =>
    simp only [Link.cut]
    split <;> simpa using ih

theorem Link.applications_join (left : Expr) (l : Link) (right : Expr) :
    (l.join left right).outline.applications = left.outline.applications ++
      right.outline.applications := by
  rw [Link.join, Expr.outline, Tree.applications_binary]

/-- Grouping a chain keeps its calls, in their order. -/
theorem Link.applications_group (levels : List Nat) (first : Expr) (links : List Link) :
    (Link.group levels first links).outline.applications =
      first.outline.applications ++ links.flatMap fun l => l.operand.outline.applications := by
  induction levels generalizing first links with
  | nil =>
    rw [Link.group]
    induction links generalizing first with
    | nil => simp
    | cons l links ih => simp [ih, Link.applications_join]
  | cons level tighter ih =>
    have hpieces (left : Expr) (pieces : List (Link × List Link)) :
        (pieces.foldl
        (fun left piece => piece.1.join left (Link.group tighter piece.1.operand piece.2))
        left).outline.applications = left.outline.applications ++
        (pieces.flatMap fun piece => piece.1 :: piece.2).flatMap fun l =>
        l.operand.outline.applications := by
      induction pieces generalizing left with
      | nil => simp
      | cons piece pieces ihPieces => simp [ihPieces, ih, Link.applications_join]
    conv_rhs => rw [Link.cut_flatten level links]
    rw [Link.group, hpieces, ih, List.append_assoc, ← List.flatMap_append]

/-- The calls in the first value of a variable. -/
def InitDeclarator.applications (d : InitDeclarator) : List (Tree Pos) :=
  d.init.toList.flatMap fun init => init.value.outline.applications

theorem InitDeclarator.applications_outlines (pos : Pos) (type : TypeSpec) (d : InitDeclarator) :
    (d.outlines pos type).flatMap Tree.applications = d.applications := by
  obtain ⟨declarator, _ | init⟩ := d
  · rfl
  · simp [InitDeclarator.outlines, InitDeclarator.applications, TypeSpec.outline,
      Declarator.outline, Tree.applications_binary, Tree.applications_leaf]

/-- The block under a condition has the calls of the statement there. -/
theorem Stmt.applications_body (s : Stmt) (ts : List (Tree Pos)) :
    (s.bodyOutline ts).applications = ts.flatMap Tree.applications := by
  cases s with
  | block pos stmts =>
    rcases ts with _ | ⟨t, _ | ⟨t', ts⟩⟩
    · rfl
    · exact (List.flatMap_singleton _ _).symm
    · exact Tree.applications_seq _ _ _
  | _ => exact Tree.applications_seq _ _ _

end Surface

/-! ## Calls and signatures in the tokens -/

/-- The identifiers in front of an opening parenthesis. -/
def namesBeforeParen : List Token → List Token
  | [] => []
  | t :: ts =>
    if t.kind = .identifier ∧ headKind ts = .leftParen then t :: namesBeforeParen ts
      else namesBeforeParen ts

/-- The call of `callee` at `pos` has `count` arguments between its parentheses. -/
def CallSpelled (ts : List Token) (pos : Pos) (callee : String) (count : Nat) : Prop :=
  ∃ before opening inner closing after,
    ts = before ++ ⟨.identifier, callee, pos⟩ :: opening :: (inner ++ closing :: after) ∧
      opening.kind = .leftParen ∧ closing.kind = .rightParen ∧ ArgumentList inner count

/-- If the node is a call, it is spelled in the tokens. -/
def Spelled (ts : List Token) (u : Tree Pos) : Prop :=
  ∀ pos callee args, u = .unary pos (.call callee) args →
    ∃ place items, args = some (.seq place .parameters items) ∧
    CallSpelled ts pos callee items.length

/-- The node is the call or the signature whose name is the token. -/
def HasName (t : Token) (u : Tree Pos) : Prop :=
  ∃ child, u = .unary t.pos (.call t.text) child ∨ u = .unary t.pos (.signature t.text) child

/-- The calls and signatures in the tokens are the nodes `us`. -/
structure Matches (ts : List Token) (us : List (Tree Pos)) : Prop where
  spelled : ∀ u ∈ us, Spelled ts u
  found : ∀ t ∈ namesBeforeParen ts, ∃ u ∈ us, HasName t u

/-- The last of the tokens is not a name. -/
def EndsUnnamed (ts : List Token) : Prop := ∃ front t, ts = front ++ [t] ∧ t.kind ≠ .identifier

section Matches

variable {t : Token} {ts ts' : List Token} {us us' : List (Tree Pos)}

theorem CallSpelled.append {pos : Pos} {callee : String} {count : Nat}
    (h : CallSpelled ts pos callee count) (front back : List Token) :
    CallSpelled (front ++ (ts ++ back)) pos callee count := by
  obtain ⟨before, opening, inner, closing, after, rfl, hkinds⟩ := h
  exact ⟨front ++ before, opening, inner, closing, after ++ back, by simp, hkinds⟩

theorem Spelled.append {u : Tree Pos} (h : Spelled ts u) (front back : List Token) :
    Spelled (front ++ (ts ++ back)) u := by
  intro pos callee args hu
  obtain ⟨place, items, hargs, hcall⟩ := h pos callee args hu
  exact ⟨place, items, hargs, hcall.append front back⟩

theorem EndsUnnamed.concat (ht : t.kind ≠ .identifier) (ts : List Token) :
    EndsUnnamed (ts ++ [t]) :=
  ⟨ts, t, rfl, ht⟩

theorem EndsUnnamed.behind (h : EndsUnnamed ts) (front : List Token) :
    EndsUnnamed (front ++ ts) := by
  obtain ⟨ts, t, rfl, ht⟩ := h
  exact ⟨front ++ ts, t, (List.append_assoc ..).symm, ht⟩

theorem namesBeforeParen_cons (ht : t.kind ≠ .identifier) :
    namesBeforeParen (t :: ts) = namesBeforeParen ts := by
  simp [namesBeforeParen, ht]

theorem namesBeforeParen_append (h : headKind ts' ≠ .leftParen) :
    namesBeforeParen (ts ++ ts') = namesBeforeParen ts ++ namesBeforeParen ts' := by
  induction ts with
  | nil => rfl
  | cons t ts ih =>
    have hhead : headKind (ts ++ ts') = .leftParen ↔ headKind ts = .leftParen := by
      cases ts with
      | nil => simpa [headKind] using h
      | cons _ _ => rfl
    simp only [List.cons_append, namesBeforeParen, hhead, ih]
    split <;> rfl

theorem namesBeforeParen_concat (ht : t.kind ≠ .identifier) :
    namesBeforeParen (ts ++ t :: ts') = namesBeforeParen (ts ++ [t]) ++ namesBeforeParen ts' := by
  induction ts with
  | nil => simp [namesBeforeParen, ht]
  | cons u ts ih =>
    have hhead : headKind (ts ++ t :: ts') = headKind (ts ++ [t]) := by cases ts <;> rfl
    simp only [List.cons_append, namesBeforeParen, hhead, ih]
    split <;> rfl

/-- Without a parenthesis there is nothing to match. -/
theorem Matches.none (h : ∀ t ∈ ts, t.kind ≠ .leftParen) : Matches ts [] := by
  refine ⟨nofun, ?_⟩
  have hnames : namesBeforeParen ts = [] := by
    induction ts with
    | nil => rfl
    | cons t ts ih =>
      obtain ⟨-, hts⟩ := List.forall_mem_cons.mp h
      have hhead : headKind ts ≠ .leftParen := by
        cases ts with
        | nil => nofun
        | cons u _ => exact hts u List.mem_cons_self
      simp [namesBeforeParen, hhead, ih hts]
  rw [hnames]
  nofun

theorem Matches.cons (ht : t.kind ≠ .identifier) (h : Matches ts us) : Matches (t :: ts) us where
  spelled u hu := by simpa using (h.spelled u hu).append [t] []
  found := by
    rw [namesBeforeParen_cons ht]
    exact h.found

theorem Matches.of_names (h : Matches ts us) (h' : Matches ts' us')
    (hnames : namesBeforeParen (ts ++ ts') = namesBeforeParen ts ++ namesBeforeParen ts') :
    Matches (ts ++ ts') (us ++ us') where
  spelled := by
    rw [List.forall_mem_append]
    exact ⟨fun u hu => (h.spelled u hu).append [] ts',
      fun u hu => by simpa using (h'.spelled u hu).append ts []⟩
  found := by
    rw [hnames, List.forall_mem_append]
    refine ⟨fun t ht => ?_, fun t ht => ?_⟩
    · obtain ⟨u, hu, hname⟩ := h.found t ht
      exact ⟨u, List.mem_append_left _ hu, hname⟩
    · obtain ⟨u, hu, hname⟩ := h'.found t ht
      exact ⟨u, List.mem_append_right _ hu, hname⟩

/-- Where the second part does not begin with a parenthesis, no name of the first part is in front
of one. -/
theorem Matches.append (h : Matches ts us) (h' : Matches ts' us')
    (hhead : headKind ts' ≠ .leftParen) : Matches (ts ++ ts') (us ++ us') :=
  h.of_names h' (namesBeforeParen_append hhead)

/-- Nor where the first part does not end in a name. -/
theorem Matches.append_of_last (h : Matches ts us) (h' : Matches ts' us') (hlast : EndsUnnamed ts) :
    Matches (ts ++ ts') (us ++ us') := by
  obtain ⟨front, t, rfl, ht⟩ := hlast
  exact h.of_names h' (by rw [List.append_assoc, List.singleton_append, namesBeforeParen_concat ht])

theorem Matches.between (h : Matches ts us) (h' : Matches ts' us') (ht : t.kind ≠ .identifier)
    (hparen : t.kind ≠ .leftParen) : Matches (ts ++ t :: ts') (us ++ us') :=
  h.append (h'.cons ht) hparen

theorem Matches.concat (h : Matches ts us) (ht : t.kind ≠ .leftParen) : Matches (ts ++ [t]) us := by
  have hempty : Matches [t] [] := .none (by simpa using ht)
  simpa using h.append hempty ht

end Matches

/-! ## Phrases

By induction on the phrase. Where two parts meet, no name stands in front of a parenthesis that is
not its own. -/

/-- A call is matched by its name, and its arguments by what is between its parentheses. -/
theorem matches_call {t p : Token} {us : List (Tree Pos)} (place : Pos) (ht : t.kind = .identifier)
    (hp : p.kind = .leftParen) (hargs : Arguments ts args) (h : Matches ts us) :
    Matches (t :: p :: ts)
      (us ++ [.unary t.pos (.call t.text)
        (some (.seq place .parameters ((Expr.outlines args).map some)))]) := by
  have hnames : namesBeforeParen (t :: p :: ts) = t :: namesBeforeParen ts := by
    simp [namesBeforeParen, headKind, ht, hp]
  constructor
  · rw [List.forall_mem_append, List.forall_mem_singleton]
    refine ⟨fun u hu => by simpa using (h.spelled u hu).append [t, p] [], ?_⟩
    rintro _ _ _ ⟨⟩
    obtain ⟨inner, q, rfl, hq, hlist⟩ := argumentList_of_arguments hargs
    refine ⟨place, _, rfl, [], p, inner, q, [], ?_, hp, hq, ?_⟩
    · rw [← ht, List.nil_append]
    · rwa [List.length_map, Expr.outlines_eq, List.length_map]
  · rw [hnames, List.forall_mem_cons]
    refine ⟨⟨_, List.mem_append_right _ List.mem_cons_self, _, .inl rfl⟩, fun n hn => ?_⟩
    obtain ⟨u, hu, hname⟩ := h.found n hn
    exact ⟨u, List.mem_append_left _ hu, hname⟩

namespace Surface.Phrase

variable {ts : List Token} {d : Declarator} {e : Expr} {es : List External} {value : Option Expr}
  {vars : InitDeclarator × List InitDeclarator}

theorem operator_ne {t : Token} {op : Operator} (ht : t.kind.operator? = some op) :
    t.kind ≠ .identifier := by
  intro h
  rw [h] at ht
  cases ht

theorem Links.head_ne_nil {links : List Link} (h : Links ts links) : headKind ts ≠ .leftParen := by
  have hhead : headKind (ts ++ []) ≠ .leftParen := h.head_ne nofun
  rwa [List.append_nil] at hhead

mutual

theorem Assignment.calls {ts : List Token} {e : Expr} :
    Assignment ts e → Matches ts e.outline.applications
  | .value h => h.calls
  | .assign htarget ht hvalue => by
    rw [Expr.outline, Tree.applications_binary]
    exact htarget.calls.between hvalue.calls (by simp [ht]) (by simp [ht])

theorem Chain.calls {ts : List Token} {e : Expr} : Chain ts e → Matches ts e.outline.applications
  | .mk hfirst hlinks => by
    rw [Link.applications_group]
    exact hfirst.calls.append hlinks.calls hlinks.head_ne_nil

theorem Links.calls {ts : List Token} {links : List Link} :
    Links ts links → Matches ts (links.flatMap fun l => l.operand.outline.applications)
  | .nil => .none nofun
  | .cons ht hoperand hlinks => by
    rw [List.flatMap_cons]
    exact .cons (operator_ne ht) (hoperand.calls.append hlinks.calls hlinks.head_ne_nil)

theorem Unary.calls {ts : List Token} {e : Expr} : Unary ts e → Matches ts e.outline.applications
  | .plus ht h => h.calls.cons (by simp [ht])
  | .negative ht hn _ => .none (by simp [ht, hn])
  | .minus ht _ h => by
    rw [Expr.outline, Tree.applications_binary, Tree.applications_leaf, List.nil_append]
    exact h.calls.cons (by simp [ht])
  | .primary h => h.calls

theorem Primary.calls {ts : List Token} {e : Expr} :
    Primary ts e → Matches ts e.outline.applications
  | .integer ht _ => .none (by simp [ht])
  | .character ht _ => .none (by simp [ht])
  | .string ht => .none (by simp [ht])
  | .name ht => .none (by simp [ht])
  | .call ht hp hargs => by
    rw [Expr.outline, Tree.applications_call, Tree.applications_seq]
    exact matches_call _ ht hp hargs hargs.calls
  | .paren hp h hq => (h.calls.concat (by simp [hq])).cons (by simp [hp])

theorem Arguments.calls {ts : List Token} {args : List Expr} :
    Arguments ts args → Matches ts ((Expr.outlines args).flatMap Tree.applications)
  | .none hq => .none (by simp [hq])
  | .last h hq => by
    rw [Expr.outlines, Expr.outlines, List.flatMap_singleton]
    exact h.calls.concat (by simp [hq])
  | .more h hc hmore => by
    rw [Expr.outlines, List.flatMap_cons]
    exact h.calls.between hmore.calls (by simp [hc]) (by simp [hc])

end

/-! ## Variables and statements -/

/-- In the head of a declaration there is no parenthesis but those around the parameters. -/
theorem no_paren (h : ∀ t ∈ ts, inHead t.kind = true) : ∀ t ∈ ts, t.kind ≠ .leftParen := by
  intro t ht hparen
  have hkind := h t ht
  rw [hparen] at hkind
  cases hkind

theorem Initialized.calls {init : Option Initializer} (h : Initialized ts init) :
    Matches ts (InitDeclarator.applications ⟨d, init⟩) := by
  cases h with
  | absent => exact .none nofun
  | value ht h => exact .cons (by simp [ht]) (by simpa [InitDeclarator.applications] using h.calls)

theorem Variables.calls (h : Variables d ts vars) :
    Matches ts ((vars.1 :: vars.2).flatMap InitDeclarator.applications) := by
  induction h with
  | last hinit hs =>
    rw [List.flatMap_singleton]
    exact hinit.calls.concat (by simp [hs])
  | more hinit hc hnext hmore ih =>
    have hname :=
      (Matches.none (no_paren hnext.headKinds)).append ih (by simpa using hmore.head_ne [])
    exact hinit.calls.between hname (by simp [hc]) (by simp [hc])

theorem Declaration.calls {decl : VarDecl} (h : Declaration ts decl) :
    Matches ts (decl.outlines.flatMap Tree.applications) := by
  cases h with
  | @mk ts ns vs type d first more htype hname hvars =>
    have houtlines : (VarDecl.outlines ⟨type.pos, type, first, more⟩).flatMap Tree.applications =
        (first :: more).flatMap InitDeclarator.applications := by
      rw [VarDecl.outlines, List.flatMap_assoc]
      exact congrArg (List.flatMap · _) (funext fun d => InitDeclarator.applications_outlines _ _ d)
    rw [houtlines]
    have hdeclared :=
      (Matches.none (no_paren hname.headKinds)).append hvars.calls (by simpa using hvars.head_ne [])
    refine (Matches.none (no_paren htype.headKinds)).append hdeclared ?_
    cases hname with
    | @mk stars t hstars ht =>
      cases stars with
      | nil => simp [headKind, ht]
      | cons s stars => simp [headKind, hstars s List.mem_cons_self]

theorem Condition.ends (h : Condition ts e) : EndsUnnamed ts := by
  cases h with
  | @mk p _ ts _ _ _ hq => exact .concat (by simp [hq]) (p :: ts)

theorem Condition.calls (h : Condition ts e) : Matches ts e.outline.applications := by
  cases h with
  | mk hp h hq => exact (h.calls.concat (by simp [hq])).cons (by simp [hp])

theorem Returned.ends (h : Returned ts value) : EndsUnnamed ts := by
  cases h with
  | nothing hs => exact .concat (by simp [hs]) []
  | value _ hs => exact .concat (by simp [hs]) _

theorem Returned.calls (h : Returned ts value) :
    Matches ts ((value.map Expr.outline).toList.flatMap Tree.applications) := by
  cases h with
  | nothing hs => exact .none (by simp [hs])
  | value h hs =>
    rw [Option.map_some, Option.toList_some, List.flatMap_singleton]
    exact h.calls.concat (by simp [hs])

theorem Variables.ends (h : Variables d ts vars) : EndsUnnamed ts := by
  induction h with
  | last _ hs => exact .concat (by simp [hs]) _
  | @more _ _ ts ns _ _ c _ _ _ _ _ _ ih => exact ((ih.behind ns).behind [c]).behind ts

mutual

/-- Every statement ends in a semicolon or in a brace. -/
theorem Statement.ends {ts : List Token} {stmt : Stmt} : Statement ts stmt → EndsUnnamed ts
  | .ret (t := t) _ h => h.ends.behind [t]
  | .ifThen (t := t) _ _ hbody => (hbody.ends.behind _).behind [t]
  | .ifThenElse (t := t) (l := l) _ _ _ _ _ helse =>
    (((helse.ends.behind [l]).behind _).behind _).behind [t]
  | .while (t := t) _ _ hbody => (hbody.ends.behind _).behind [t]
  | .block (t := t) _ h => h.ends.behind [t]
  | .empty ht => .concat (by simp [ht]) []
  | .vars (.mk _ _ hvars) => (hvars.ends.behind _).behind _
  | .expr _ hs => .concat (by simp [hs]) (_ :: _)

theorem Statements.ends {ts : List Token} {stmts : List Stmt} : Statements ts stmts → EndsUnnamed ts
  | .nil hq => .concat (by simp [hq]) []
  | .cons _ hmore => hmore.ends.behind _

end

mutual

theorem Statement.calls {ts : List Token} {stmt : Stmt} :
    Statement ts stmt → Matches ts (stmt.outlines.flatMap Tree.applications)
  | .ret ht h => by
    rw [Stmt.outlines, List.flatMap_singleton, Tree.applications_ret]
    exact h.calls.cons (by simp [ht])
  | .ifThen ht hcond hbody => by
    rw [Stmt.outlines, List.flatMap_singleton, Tree.applications_binary, Stmt.applications_body]
    exact (hcond.calls.append_of_last hbody.calls hcond.ends).cons (by simp [ht])
  | .ifThenElse (l := l) ht hcond hthen _ hl helse => by
    rw [Stmt.outlines, List.flatMap_singleton, Tree.applications_ternary, Stmt.applications_body,
      Stmt.applications_body]
    have hbodies := hthen.calls.between (t := l) helse.calls (by simp [hl]) (by simp [hl])
    exact (hcond.calls.append_of_last hbodies hcond.ends).cons (by simp [ht])
  | .while ht hcond hbody => by
    rw [Stmt.outlines, List.flatMap_singleton, Tree.applications_binary, Stmt.applications_body]
    exact (hcond.calls.append_of_last hbody.calls hcond.ends).cons (by simp [ht])
  | .block ht h => by
    rw [Stmt.outlines, List.flatMap_singleton, Tree.applications_seq]
    exact h.calls.cons (by simp [ht])
  | .empty ht => .none (by simp [ht])
  | .vars h => by
    rw [Stmt.outlines]
    exact h.calls
  | .expr h hs => by
    rw [Stmt.outlines, List.flatMap_singleton]
    exact h.calls.concat (by simp [hs])

theorem Statements.calls {ts : List Token} {stmts : List Stmt} :
    Statements ts stmts → Matches ts ((Stmt.allOutlines stmts).flatMap Tree.applications)
  | .nil hq => .none (by simp [hq])
  | .cons h hmore => by
    rw [Stmt.allOutlines, List.flatMap_append]
    exact h.calls.append_of_last hmore.calls h.ends

end

/-! ## Functions -/

theorem FunctionHead.applications_signature (head : FunctionHead) :
    head.signature.applications = [head.signature] := by
  have hparams : (head.params.map Param.outline).flatMap Tree.applications = [] := by
    simp [Param.outline, TypeSpec.outline, Declarator.outline, Tree.applications_binary,
      Tree.applications_leaf]
  rw [FunctionHead.signature, Tree.applications_signature, Tree.applications_seq, hparams,
    List.nil_append]

/-- The name of a function is in front of its parameters. -/
theorem matches_function {ns rest : List Token} {p : Token} {type : TypeSpec} {head : FunctionHead}
    {us : List (Tree Pos)} (htype : TypeName ts type) (hname : Declared ns d)
    (hp : p.kind = .leftParen) (hhead : head.declarator = d) (h : Matches rest us) :
    Matches (ts ++ (ns ++ p :: rest)) (head.signature :: us) := by
  cases hname with
  | @mk stars t hstars ht =>
    have hfront : Matches (ts ++ stars) [] := by
      refine .none (List.forall_mem_append.mpr ⟨no_paren htype.headKinds, fun s hs => ?_⟩)
      simp [hstars s hs]
    have hnames : namesBeforeParen (t :: p :: rest) = t :: namesBeforeParen rest := by
      simp [namesBeforeParen, headKind, ht, hp]
    have hsignature : HasName t head.signature := ⟨_, .inr (by rw [FunctionHead.signature, hhead])⟩
    have hback : Matches (t :: p :: rest) (head.signature :: us) := by
      refine ⟨List.forall_mem_cons.mpr ⟨fun _ _ _ hu => ?_, fun u hu => ?_⟩, ?_⟩
      · rw [FunctionHead.signature] at hu
        cases hu
      · simpa using (h.spelled u hu).append [t, p] []
      · rw [hnames, List.forall_mem_cons]
        refine ⟨⟨_, List.mem_cons_self, hsignature⟩, fun n hn => ?_⟩
        obtain ⟨u, hu, hname⟩ := h.found n hn
        exact ⟨u, List.mem_cons_of_mem _ hu, hname⟩
    have hall := hfront.append hback (by simp [headKind, ht])
    simpa using hall

theorem Member.calls {e : External} (h : Member ts e) :
    Matches ts (e.outlines.flatMap Tree.applications) := by
  cases h with
  | prototype htype hname hp hparams hs =>
    rw [External.outlines, List.flatMap_singleton, Tree.applications_binary,
      FunctionHead.applications_signature]
    refine matches_function htype hname hp rfl (.none ?_)
    exact List.forall_mem_append.mpr ⟨no_paren hparams.headKinds, by simp [hs]⟩
  | definition htype hname hp hparams hb hbody =>
    rw [External.outlines, List.flatMap_singleton, Tree.applications_ternary,
      FunctionHead.applications_signature, Tree.applications_seq]
    refine matches_function htype hname hp rfl ?_
    exact (Matches.none (no_paren hparams.headKinds)).append (hbody.calls.cons (by simp [hb]))
      (by simp [headKind, hb])
  | vars h => exact h.calls

/-- A program begins with a type. -/
theorem Members.head_ne (h : Members ts es) : headKind ts ≠ .leftParen := by
  have htype {ts rest : List Token} {type : TypeSpec} (h : TypeName ts type) : headKind
      (ts ++ rest) ≠ .leftParen := by
    intro hparen
    have hstart := h.starts rest
    rw [hparen] at hstart
    cases hstart
  cases h with
  | nil => nofun
  | cons h _ =>
    cases h with
    | prototype h _ _ _ _ | definition h _ _ _ _ _ => simpa using htype h
    | vars h =>
      cases h with
      | mk h _ _ => simpa using htype h

theorem Members.calls (h : Members ts es) :
    Matches ts ((es.flatMap External.outlines).flatMap Tree.applications) := by
  induction h with
  | nil => exact .none nofun
  | cons h hmore ih =>
    rw [List.flatMap_cons, List.flatMap_append]
    exact h.calls.append ih hmore.head_ne

end Surface.Phrase

/-! ## Texts -/

/-- The calls and signatures of a program are those of its tokens. -/
theorem matches_of_ofText {text : List Char} {program : Program}
    (h : Program.ofText text = .ok program) :
    Matches (TokenStream.ofText text).tokens program.outline.applications := by
  rw [Program.outline, Tree.applications_seq]
  exact (Program.ofText_eq_ok_iff.mp h).1.calls

/-- A node of an outline is a node of the tree, without its identity. -/
theorem mem_postorder_outline {root : Node} {t u : Tree Pos} (h : root.map Stamp.pos = t) :
    u ∈ t.postorder ↔ ∃ n ∈ root.postorder, n.map Stamp.pos = u := by
  rw [← h, Tree.postorder_map, List.mem_map]

theorem eq_seq_of_map {child : Option Node} {place : Pos} {form : SeqForm}
    {items : List (Option (Tree Pos))}
    (h : Tree.mapChild Stamp.pos child = some (.seq place form items)) :
    ∃ stamp items', child = some (.seq stamp form items') ∧
      items = Tree.mapItems Stamp.pos items' := by
  rcases child with _ | n
  · cases h
  cases n with
  | seq stamp form' items' =>
    cases h
    exact ⟨stamp, items', rfl, rfl⟩
  | _ => cases h

theorem Tree.eq_call_of_kind {σ : Type} {t : Tree σ} (h : t.kind = .call) :
    ∃ l callee args, t = .unary l (.call callee) args := by
  rcases t with ⟨l, form⟩ | ⟨l, form, items⟩ | ⟨l, form, child⟩ | ⟨l, form, left, right⟩ | ⟨l, form,
    first, second, third⟩
  all_goals cases form <;> cases h
  exact ⟨l, _, child, rfl⟩

/-- In a text that is read, each call is spelled as a name and a list of arguments, and each name in
front of a parenthesis is that of a call or of a signature. -/
theorem calls_spelled {generation : UInt32} {path : String} {text : List Char} {file : File}
    {root : Node} (hparse : File.parse generation path text = .ok file)
    (hroot : file.root = some root) :
    (∀ stamp callee args, Tree.unary stamp (.call callee) args ∈ root.postorder →
      ∃ place items, args = some (.seq place .parameters items) ∧
        CallSpelled (TokenStream.ofText text).tokens stamp.pos callee items.length) ∧
    ∀ t ∈ namesBeforeParen (TokenStream.ofText text).tokens, ∃ stamp child, stamp.pos = t.pos ∧
      (Tree.unary stamp (.call t.text) child ∈ root.postorder ∨
        Tree.unary stamp (.signature t.text) child ∈ root.postorder) := by
  obtain ⟨program, hread, houtline⟩ := File.outline_of_parse hparse hroot
  have hmatches := matches_of_ofText hread
  constructor
  · intro stamp callee args hcall
    have hmem := (mem_postorder_outline houtline).mpr ⟨_, hcall, rfl⟩
    obtain ⟨place, items, hargs, hspelled⟩ :=
      hmatches.spelled _ (List.mem_filter.mpr ⟨hmem, rfl⟩) stamp.pos callee
        (Tree.mapChild Stamp.pos args) rfl
    obtain ⟨stamp', items', rfl, rfl⟩ := eq_seq_of_map hargs
    rw [Tree.mapItems_eq_map, List.length_map] at hspelled
    exact ⟨stamp', items', rfl, hspelled⟩
  · intro t ht
    obtain ⟨u, hu, child, hname⟩ := hmatches.found t ht
    obtain ⟨n, hn, rfl⟩ := (mem_postorder_outline houtline).mp (List.mem_filter.mp hu).1
    cases n with
    | unary stamp form c =>
      rcases hname with h | h
      · obtain ⟨hpos, rfl, -⟩ := Tree.unary.inj h
        exact ⟨stamp, c, hpos, .inl hn⟩
      · obtain ⟨hpos, rfl, -⟩ := Tree.unary.inj h
        exact ⟨stamp, c, hpos, .inr hn⟩
    | _ => rcases hname with h | h <;> cases h

/-- A call with a comma behind its argument. -/
def trailingComma : List Char := "int f(int a) \x7b return f(1,); \x7d".toList

/-- The call has one argument and one comma. -/
theorem trailingComma_spelled :
    ∃ file root, File.parse 0 "a.c" trailingComma = .ok file ∧ file.root = some root ∧
      (∃ stamp callee place item, stamp.pos = ⟨1, 23⟩ ∧
        Tree.unary stamp (.call callee) (some (.seq place .parameters [item])) ∈ root.postorder ∧
        CallSpelled (TokenStream.ofText trailingComma).tokens stamp.pos callee 1) ∧
      ∃ before opening inner closing after, (TokenStream.ofText trailingComma).tokens =
          before ++ ⟨.identifier, "f", ⟨1, 23⟩⟩ :: opening :: (inner ++ closing :: after) ∧
        opening.kind = .leftParen ∧ closing.kind = .rightParen ∧ commas? inner = some 1 := by
  have hcheck : ((File.parse 0 "a.c" trailingComma).toOption.any fun file => file.root.any
      fun root => (root.at? [0, 2, 0, 0]).any fun n => n.kind = .call && n.label.pos =
      ⟨1, 23⟩ && (n.at? [0]).any fun list => list.children.length = 1) = true := by
    decide +kernel
  have htokens : (TokenStream.ofText trailingComma).tokens =
      (TokenStream.ofText trailingComma).tokens.take 8 ++ ⟨.identifier, "f", ⟨1, 23⟩⟩ ::
      ⟨.leftParen, "(", ⟨1, 24⟩⟩ :: ([⟨.integer, "1", ⟨1, 25⟩⟩, ⟨.comma, ",", ⟨1, 26⟩⟩] ++
      ⟨.rightParen, ")", ⟨1, 27⟩⟩ :: (TokenStream.ofText trailingComma).tokens.drop 13) := by
    decide +kernel
  obtain ⟨file, hparse, hcheck⟩ := exists_ok_of_any hcheck
  obtain ⟨root, hroot, hcheck⟩ := (Option.any_eq_true _ _).mp hcheck
  obtain ⟨n, hn, hcheck⟩ := (Option.any_eq_true _ _).mp hcheck
  simp only [Bool.and_eq_true, decide_eq_true_eq] at hcheck
  obtain ⟨⟨hkind, hpos⟩, hcheck⟩ := hcheck
  obtain ⟨stamp, callee, args, rfl⟩ := Tree.eq_call_of_kind hkind
  have hcall := Tree.mem_postorder_of_at hn
  obtain ⟨place, items, rfl, hspelled⟩ := (calls_spelled hparse hroot).1 stamp callee args hcall
  obtain ⟨item, rfl⟩ := List.length_eq_one_iff.mp (of_decide_eq_true hcheck)
  exact ⟨file, root, hparse, hroot, ⟨stamp, callee, place, item, hpos, hcall, hspelled⟩, _, _, _, _,
    _, htokens, rfl, rfl, rfl⟩

end CSubset
