import CSubset.Proofs.Printing.Printer
import CSubset.Proofs.Surface.Nesting
import CSubset.Proofs.Surface.Reading
import CSubset.Proofs.Tree.Outline
import Mathlib.Data.List.Forall2

/-!
# Declarations of several variables

Several variables of one type may be declared in one declaration (`together`) or each in one of its
own (`apart`). A list of phrases that begins with the one is read like a list that begins with the
other, and they have the same outlines (`Listing.nodes_together`, `Listing.nodes_apart`). The first
value of a variable may be any list of tokens that does not end the variable early (`enclosed`);
whether it is an expression is part of what has to agree.
-/

namespace CSubset.Surface

open Phrase
open Printing (fixed)
open CSubset.Surface.Parser (headKind Gets typeSpec declarator gets_typeSpec gets_declarator)

variable {rest ts rest' type us : List Token} {d : Declarator} {ds : List InitDeclarator}
  {spec : TypeSpec}

/-- The parentheses match, and outside of them there is no comma and no semicolon. -/
def enclosed (ts : List Token) : Bool :=
  (outside? 0 ts).any fun os => os.all fun t => t.kind ≠ .comma ∧ t.kind ≠ .semicolon

/-- A variable in a declaration as it is spelled: stars, a name, and an equals sign with the tokens
behind it. -/
structure Variable where
  stars : List Token
  name : Token
  init : Option (Token × List Token)
  stars_kind : ∀ s ∈ stars, s.kind = .star
  name_kind : name.kind = .identifier
  init_kind : ∀ i ∈ init, i.1.kind = .assign
  init_enclosed : ∀ i ∈ init, enclosed i.2 = true

namespace Variable

/-- What stands behind the name. -/
def initTokens (v : Variable) : List Token := v.init.elim [] fun i => i.1 :: i.2

/-- The stars and the name. -/
def nameTokens (v : Variable) : List Token := v.stars ++ [v.name]

def declarator (v : Variable) : Declarator :=
  ⟨(v.stars.head?.getD v.name).pos, v.stars.length, v.name.pos, v.name.text⟩

theorem declared (v : Variable) : Declared v.nameTokens v.declarator := .mk v.stars_kind v.name_kind

/-- The variable is spelled like that. -/
structure ReadAs (v : Variable) (d : InitDeclarator) : Prop where
  declarator : d.declarator = v.declarator
  init : Initialized v.initTokens d.init

end Variable

/-- The tokens behind the first name of a declaration. -/
def behind (v : Variable) : List Variable → List Token
  | [] => v.initTokens ++ [fixed .semicolon]
  | w :: vs => v.initTokens ++ fixed .comma :: (w.nameTokens ++ behind w vs)

/-- One declaration of all variables. -/
def together (type : List Token) (v : Variable) (vs : List Variable) : List Token :=
  type ++ (v.nameTokens ++ behind v vs)

/-- A declaration for each variable. -/
def apart (type : List Token) (vs : List Variable) : List Token :=
  vs.flatMap fun v => together type v []

theorem apart_cons (type : List Token) (v : Variable) (vs : List Variable) :
    apart type (v :: vs) = together type v [] ++ apart type vs := rfl

/-! ## Reading one declaration -/

def isSeparator (t : Token) : Prop := t.kind = .comma ∨ t.kind = .semicolon

theorem isSeparator_ne {t : Token} (h : isSeparator t) :
    t.kind ≠ .leftParen ∧ t.kind ≠ .rightParen := by
  rcases h with h | h <;> simp [h]

theorem isSeparator_fixed : isSeparator (fixed .comma) ∧ isSeparator (fixed .semicolon) :=
  ⟨.inl rfl, .inr rfl⟩

theorem outside_of_enclosed (h : enclosed ts = true) :
    ∃ os, outside? 0 ts = some os ∧ ∀ t ∈ os, ¬ isSeparator t := by
  obtain ⟨os, hos, hall⟩ := (Option.any_eq_true _ _).mp h
  refine ⟨os, hos, fun t ht => ?_⟩
  simpa [isSeparator, not_or] using List.all_eq_true.mp hall t ht

/-- So are the tokens of an expression. -/
theorem enclosed_of_compact (h : Compact ts) : enclosed ts = true := by
  obtain ⟨os, hos, hcommas⟩ := h.nested
  refine (Option.any_eq_true _ _).mpr ⟨os, hos, List.all_eq_true.mpr fun t ht => decide_eq_true
    ⟨hcommas t ht, ?_⟩⟩
  intro hsemicolon
  have hkind := h.kinds t (mem_of_mem_outside hos ht)
  rw [hsemicolon] at hkind
  cases hkind

theorem gets_unique {α : Type} {input : List Token} {x : Parser.Parsed α input} {a a' : α}
    (h : Gets x a rest) (h' : Gets x a' rest') : a = a' ∧ rest = rest' := by
  obtain ⟨_, rfl⟩ := h
  obtain ⟨_, heq⟩ := h'
  cases heq
  exact ⟨rfl, rfl⟩

theorem typeName_unique {ts' : List Token} {type type' : TypeSpec} (h : TypeName ts type)
    (h' : TypeName ts' type') (hrest : headKind rest ≠ .kwConst)
    (hrest' : headKind rest' ≠ .kwConst) (heq : ts ++ rest = ts' ++ rest') :
    ts = ts' ∧ type = type' ∧ rest = rest' := by
  have hread := gets_typeSpec h hrest
  rw [heq] at hread
  obtain ⟨rfl, rfl⟩ := gets_unique hread (gets_typeSpec h' hrest')
  exact ⟨List.append_cancel_right heq, rfl, rfl⟩

theorem declared_unique {ns ns' : List Token} {d' : Declarator} (h : Declared ns d)
    (h' : Declared ns' d') (heq : ns ++ rest = ns' ++ rest') :
    ns = ns' ∧ d = d' ∧ rest = rest' := by
  have hread := gets_declarator h rest
  rw [heq] at hread
  obtain ⟨rfl, rfl⟩ := gets_unique hread (gets_declarator h' rest')
  exact ⟨List.append_cancel_right heq, rfl, rfl⟩

/-- A first value ends in front of the separator that ends it in the other reading. -/
theorem eq_initTokens {v : Variable} {us' : List Token} {init : Option Initializer} {c c' : Token}
    (h : Initialized ts init) (hc : isSeparator c) (hc' : isSeparator c')
    (heq : ts ++ c :: us = v.initTokens ++ c' :: us') : ts = v.initTokens := by
  have hassign {t : Token} (ht : t.kind = .assign) : ¬ isSeparator t := by simp [isSeparator, ht]
  have hkind := v.init_kind
  have henclosed := v.init_enclosed
  rw [Variable.initTokens] at heq ⊢
  generalize v.init = spelled at heq hkind henclosed ⊢
  rcases spelled with _ | ⟨eq, es⟩
  · cases h with
    | absent => rfl
    | value ht _ =>
      obtain ⟨rfl, -⟩ := List.cons.inj heq
      exact absurd hc' (hassign ht)
  · cases h with
    | absent =>
      obtain ⟨rfl, -⟩ := List.cons.inj heq
      exact absurd hc (hassign (hkind _ rfl))
    | value ht h =>
      obtain ⟨rfl, htail⟩ := List.cons.inj heq
      obtain ⟨os, hos, hnone⟩ := outside_of_enclosed (enclosed_of_compact h.compact)
      obtain ⟨os', hos', hnone'⟩ := outside_of_enclosed (henclosed _ rfl)
      rw [Option.elim_some, eq_of_append_eq (fun _ => isSeparator_ne) hos hnone hos'
        hnone' hc hc' htail]

/-- What follows the first name is read in one way. -/
theorem eq_behind {vars : InitDeclarator × List InitDeclarator} {v : Variable}
    {vs : List Variable} (h : Variables d us vars) (heq : us ++ rest = behind v vs ++ rest') :
    us = behind v vs ∧ vars.1.declarator = d ∧ Initialized v.initTokens vars.1.init ∧
      List.Forall₂ Variable.ReadAs vs vars.2 := by
  induction vs generalizing v d us vars with
  | nil =>
    cases h with
    | @last _ ts init s hinit hs =>
      simp only [behind, List.append_assoc, List.cons_append] at heq
      obtain rfl := eq_initTokens hinit (.inr hs) isSeparator_fixed.2 heq
      obtain ⟨rfl, -⟩ := List.cons.inj (List.append_cancel_left heq)
      exact ⟨rfl, rfl, hinit, .nil⟩
    | @more _ _ ts _ _ _ c _ _ hinit hc _ _ =>
      simp only [behind, List.append_assoc, List.cons_append] at heq
      obtain rfl := eq_initTokens hinit (.inl hc) isSeparator_fixed.2 heq
      obtain ⟨rfl, -⟩ := List.cons.inj (List.append_cancel_left heq)
      cases hc
  | cons w vs ih =>
    cases h with
    | @last _ ts init s hinit hs =>
      simp only [behind, List.append_assoc, List.cons_append] at heq
      obtain rfl := eq_initTokens hinit (.inr hs) isSeparator_fixed.1 heq
      obtain ⟨rfl, -⟩ := List.cons.inj (List.append_cancel_left heq)
      cases hs
    | @more _ next ts ns ts' init c second others hinit hc hnext hmore =>
      simp only [behind, List.append_assoc, List.cons_append] at heq
      obtain rfl := eq_initTokens hinit (.inl hc) isSeparator_fixed.1 heq
      obtain ⟨rfl, hnames⟩ := List.cons.inj (List.append_cancel_left heq)
      -- a name ends where it ends, whatever stands behind it
      obtain ⟨rfl, rfl, hrest⟩ := declared_unique hnext w.declared hnames
      obtain ⟨rfl, hdeclarator, hsecond, hothers⟩ := ih hmore hrest
      exact ⟨rfl, rfl, hinit, .cons ⟨hdeclarator, hsecond⟩ hothers⟩

/-- A declaration that begins like that of the variables is that of the variables. -/
theorem Phrase.Declaration.eq_together {decl : VarDecl} {v : Variable} {vs : List Variable}
    (h : Declaration ts decl) (htype : TypeName type spec)
    (heq : ts ++ rest = together type v vs ++ rest') :
    ts = together type v vs ∧ ∃ d ds, decl = ⟨spec.pos, spec, d, ds⟩ ∧
      List.Forall₂ Variable.ReadAs (v :: vs) (d :: ds) := by
  cases h with
  | @mk us ns vars type' d first more htype' hname hvars =>
    rw [together, List.append_assoc, List.append_assoc, List.append_assoc, List.append_assoc] at heq
    obtain ⟨rfl, rfl, hnames⟩ :=
      typeName_unique htype' htype (hname.head_ne _) (v.declared.head_ne _) heq
    obtain ⟨rfl, rfl, hbehind⟩ := declared_unique hname v.declared hnames
    obtain ⟨rfl, hdeclarator, hinit, hmore⟩ := eq_behind hvars hbehind
    exact ⟨rfl, first, more, rfl, .cons ⟨hdeclarator, hinit⟩ hmore⟩

theorem variables_behind {v : Variable} {d : InitDeclarator} {vs : List Variable} (h : v.ReadAs d)
    (hmore : List.Forall₂ Variable.ReadAs vs ds) :
    Variables v.declarator (behind v vs) (d, ds) := by
  obtain ⟨declarator, init⟩ := d
  obtain ⟨rfl, hinit⟩ := h
  induction hmore generalizing v init with
  | nil => exact .last hinit rfl
  | @cons w second vs ds hw _ ih =>
    obtain ⟨declarator, init'⟩ := second
    obtain ⟨rfl, hinit'⟩ := hw
    exact .more hinit rfl w.declared (ih init' hinit')

theorem declaration_together {v : Variable} {d : InitDeclarator} {vs : List Variable}
    (htype : TypeName type spec) (h : List.Forall₂ Variable.ReadAs (v :: vs) (d :: ds)) :
    Declaration (together type v vs) ⟨spec.pos, spec, d, ds⟩ := by
  obtain ⟨hfirst, hmore⟩ := List.forall₂_cons.mp h
  exact .mk htype v.declared (variables_behind hfirst hmore)

/-! ## Lists that begin with declarations -/

/-- Lists of phrases of which some are declarations of variables. What follows a list is `outer`. -/
structure Listing {β : Type} (L : List Token → List β → Prop) (vars : VarDecl → β)
    (nodes : β → List (Tree Pos)) (outer : List Token) : Prop where
  cons : ∀ {ts ts' : List Token} {decl : VarDecl} {ys : List β}, Declaration ts decl → L ts' ys →
    L (ts ++ ts') (vars decl :: ys)
  uncons : ∀ {ts type rest : List Token} {spec : TypeSpec} {v : Variable} {vs : List Variable}
    {ys : List β}, L ts ys → TypeName type spec → ts ++ outer = together type v vs ++ rest →
    ∃ us us' decl ys', ts = us ++ us' ∧ ys = vars decl :: ys' ∧ Declaration us decl ∧ L us' ys'
  nodes_vars : ∀ decl, nodes (vars decl) = decl.outlines

namespace Listing

variable {β : Type} {L : List Token → List β → Prop} {vars : VarDecl → β}
  {nodes : β → List (Tree Pos)} {outer type : List Token} {spec : TypeSpec} {ts rest : List Token}
  {ds : List InitDeclarator}

/-- The variables of a declaration, each in a declaration of its own. -/
def single (vars : VarDecl → β) (spec : TypeSpec) (d : InitDeclarator) : β :=
  vars ⟨spec.pos, spec, d, []⟩

/-- A list that begins with the tokens of a declaration begins with that declaration. -/
theorem uncons_together (hlist : Listing L vars nodes outer) (htype : TypeName type spec)
    {ys : List β} {v : Variable} {vs : List Variable} (h : L ts ys)
    (heq : ts ++ outer = together type v vs ++ rest) :
    ∃ ts' d ds ys', ts = together type v vs ++ ts' ∧ rest = ts' ++ outer ∧
      ys = vars ⟨spec.pos, spec, d, ds⟩ :: ys' ∧
      List.Forall₂ Variable.ReadAs (v :: vs) (d :: ds) ∧ L ts' ys' := by
  obtain ⟨us, us', decl, ys', rfl, rfl, hdecl, hmore⟩ := hlist.uncons h htype heq
  rw [List.append_assoc] at heq
  obtain ⟨rfl, d, ds, rfl, hread⟩ := hdecl.eq_together htype heq
  exact ⟨us', d, ds, ys', rfl, (List.append_cancel_left heq).symm, rfl, hread, hmore⟩

theorem cons_together (hlist : Listing L vars nodes outer) (htype : TypeName type spec)
    {ys : List β} {v : Variable} {vs : List Variable} {d : InitDeclarator}
    (hread : List.Forall₂ Variable.ReadAs (v :: vs) (d :: ds)) (h : L ts ys) :
    L (together type v vs ++ ts) (vars ⟨spec.pos, spec, d, ds⟩ :: ys) :=
  hlist.cons (declaration_together htype hread) h

theorem uncons_apart (hlist : Listing L vars nodes outer) (htype : TypeName type spec) {ys : List β}
    {vs : List Variable} (h : L ts ys) (heq : ts ++ outer = apart type vs ++ rest) :
    ∃ ts' ds ys', ts = apart type vs ++ ts' ∧ rest = ts' ++ outer ∧
      ys = ds.map (single vars spec) ++ ys' ∧
      List.Forall₂ Variable.ReadAs vs ds ∧ L ts' ys' := by
  induction vs generalizing ts ys with
  | nil => exact ⟨ts, [], ys, rfl, heq.symm, rfl, .nil, h⟩
  | cons v vs ih =>
    rw [apart_cons, List.append_assoc] at heq
    obtain ⟨ts', d, ds, ys', rfl, hrest, rfl, hread, hmore⟩ := hlist.uncons_together htype h heq
    obtain ⟨hfirst, hds⟩ := List.forall₂_cons.mp hread
    obtain rfl := List.forall₂_nil_left_iff.mp hds
    obtain ⟨ts', ds, ys', rfl, hrest, rfl, hreads, hmore⟩ := ih hmore hrest.symm
    exact ⟨ts', d :: ds,
      ys', by rw [apart_cons, List.append_assoc], hrest, rfl, .cons hfirst hreads, hmore⟩

theorem cons_apart (hlist : Listing L vars nodes outer) (htype : TypeName type spec) {ys : List β}
    {vs : List Variable} (hread : List.Forall₂ Variable.ReadAs vs ds) (h : L ts ys) :
    L (apart type vs ++ ts) (ds.map (single vars spec) ++ ys) := by
  induction hread with
  | nil => exact h
  | cons hfirst _ ih =>
    rw [apart_cons, List.append_assoc]
    exact hlist.cons_together htype (.cons hfirst .nil) ih

theorem nodes_together (hlist : Listing L vars nodes outer) (d : InitDeclarator)
    (ds : List InitDeclarator) :
    nodes (vars ⟨spec.pos, spec, d, ds⟩) = (d :: ds).flatMap
      (InitDeclarator.outlines spec.pos spec) :=
  hlist.nodes_vars _

theorem nodes_apart (hlist : Listing L vars nodes outer) (ds : List InitDeclarator) :
    (ds.map (single vars spec)).flatMap nodes = ds.flatMap
      (InitDeclarator.outlines spec.pos spec) := by
  rw [List.flatMap_map]
  refine congrArg (List.flatMap · ds) (funext fun d => ?_)
  rw [single, hlist.nodes_together, List.flatMap_singleton]

end Listing

/-! ## Statements and external declarations -/

/-- A statement that begins with a type is a declaration. -/
theorem Phrase.Statement.exists_declaration {s : Stmt} (h : Statement ts s)
    (hstart : (headKind (ts ++ rest)).startsType = true) :
    ∃ decl, s = .vars decl ∧ Declaration ts decl := by
  cases h with
  | ret ht _ | ifThen ht _ _ | ifThenElse ht _ _ _ _ _ | «while» ht _ _ | block ht _ | empty ht =>
    rw [List.cons_append, headKind, ht] at hstart
    cases hstart
  | vars h => exact ⟨_, rfl, h⟩
  | @expr t _ _ _ h _ =>
    have hkind := startsType_of_inExpression (h.compact.kinds t List.mem_cons_self)
    rw [List.cons_append, headKind, hkind] at hstart
    cases hstart

theorem listing_statements (outer : List Token) :
    Listing Statements Stmt.vars Stmt.outlines outer where
  cons hdecl hmore := .cons (.vars hdecl) hmore
  uncons {ts type rest spec v vs ys} h htype heq := by
    have hstart : (headKind (ts ++ outer)).startsType = true := by
      rw [heq, together, List.append_assoc]
      exact htype.starts _
    cases h with
    | nil hq =>
      rw [List.cons_append, headKind, hq] at hstart
      cases hstart
    | cons h hmore =>
      rw [List.append_assoc] at hstart
      obtain ⟨decl, rfl, hdecl⟩ := h.exists_declaration hstart
      exact ⟨_, _, decl, _, rfl, rfl, hdecl, hmore⟩
  nodes_vars decl := by rw [Stmt.outlines]

/-- Behind the name of a variable there is no parenthesis. -/
theorem head_behind_ne (v : Variable) (vs : List Variable) (rest : List Token) :
    headKind (behind v vs ++ rest) ≠ .leftParen := by
  have hkind := v.init_kind
  have hinit (u : Token) (us : List Token) (hu : u.kind ≠ .leftParen) :
      headKind (v.initTokens ++ u :: us) ≠ .leftParen := by
    rw [Variable.initTokens]
    generalize v.init = spelled at hkind
    rcases spelled with _ | ⟨eq, es⟩
    · exact hu
    · have heq : eq.kind = .assign := hkind (eq, es) rfl
      simp [headKind, heq]
  cases vs with
  | nil =>
    rw [behind, List.append_assoc]
    exact hinit _ _ nofun
  | cons w vs =>
    rw [behind, List.append_assoc]
    exact hinit _ _ nofun

/-- Outside functions a declaration is told from a function by the token behind its name. -/
theorem listing_members : Listing Members External.vars External.outlines [] where
  cons hdecl hmore := .cons (.vars hdecl) hmore
  uncons {ts type rest spec v vs ys} h htype heq := by
    -- A function would have a parenthesis behind its name.
    have hfunction {us ns us' : List Token} {p : Token} {type' : TypeSpec} {d : Declarator}
        (htype' : TypeName us type') (hname : Declared ns d) (hp : p.kind = .leftParen)
        (heq : us ++ (ns ++ p :: us') = together type v vs ++ rest) : False := by
      rw [together, List.append_assoc, List.append_assoc] at heq
      obtain ⟨-, -, hnames⟩ :=
        typeName_unique htype' htype (hname.head_ne _) (v.declared.head_ne _) heq
      obtain ⟨-, -, hbehind⟩ := declared_unique hname v.declared hnames
      exact head_behind_ne v vs rest (by rw [← hbehind, headKind, hp])
    rw [List.append_nil] at heq
    cases h with
    | nil =>
      have hstart := htype.starts (v.nameTokens ++ behind v vs ++ rest)
      rw [← List.append_assoc, ← together, ← heq] at hstart
      cases hstart
    | cons h hmore =>
      cases h with
      | prototype htype' hname hp _ _ =>
        simp only [List.append_assoc, List.cons_append] at heq
        exact (hfunction htype' hname hp heq).elim
      | definition htype' hname hp _ _ _ =>
        simp only [List.append_assoc, List.cons_append] at heq
        exact (hfunction htype' hname hp heq).elim
      | vars h => exact ⟨_, _, _, _, rfl, rfl, h, hmore⟩
  nodes_vars decl := rfl

end CSubset.Surface
