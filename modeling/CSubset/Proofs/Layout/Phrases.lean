import CSubset.Proofs.Surface.Acceptance

/-!
# Tokens elsewhere

The tokens of a text may be moved to other positions. What they spell does not change but for the
positions in it, which are moved in the same way (`Surface.Phrase.Members.relocate`). Whether they
spell anything depends on their kinds and texts alone (`Grammar.derives_of_same`).
-/

namespace CSubset

/-- What a token is apart from its position. -/
def Token.spelling (t : Token) : TokenKind × String := (t.kind, t.text)

/-! ## Syntax elsewhere

The phrases with the positions moved by `f`. -/

def Token.relocate (f : Pos → Pos) (t : Token) : Token := { t with pos := f t.pos }

@[simp] theorem Token.relocate_kind (f : Pos → Pos) (t : Token) : (t.relocate f).kind = t.kind :=
  rfl

namespace Surface

mutual

def Expr.relocate (f : Pos → Pos) : Expr → Expr
  | .int pos value => .int (f pos) value
  | .str pos contents => .str (f pos) contents
  | .name pos ident => .name (f pos) ident
  | .call pos callee argsPos args => .call (f pos) callee (f argsPos) (Expr.relocateAll f args)
  | .neg pos operand => .neg (f pos) (operand.relocate f)
  | .binary pos op left right => .binary (f pos) op (left.relocate f) (right.relocate f)
  | .assign pos target value => .assign (f pos) (target.relocate f) (value.relocate f)

def Expr.relocateAll (f : Pos → Pos) : List Expr → List Expr
  | [] => []
  | e :: es => e.relocate f :: Expr.relocateAll f es

end

def Link.relocate (f : Pos → Pos) (l : Link) : Link := ⟨f l.pos, l.op, l.operand.relocate f⟩

def TypeSpec.relocate (f : Pos → Pos) (t : TypeSpec) : TypeSpec := { t with pos := f t.pos }

def Declarator.relocate (f : Pos → Pos) (d : Declarator) : Declarator :=
  ⟨f d.pos, d.stars, f d.namePos, d.name⟩

def Initializer.relocate (f : Pos → Pos) (i : Initializer) : Initializer :=
  ⟨f i.pos, i.value.relocate f⟩

def InitDeclarator.relocate (f : Pos → Pos) (d : InitDeclarator) : InitDeclarator :=
  ⟨d.declarator.relocate f, d.init.map (Initializer.relocate f)⟩

def VarDecl.relocate (f : Pos → Pos) (d : VarDecl) : VarDecl :=
  ⟨f d.pos, d.type.relocate f, d.first.relocate f, d.more.map (InitDeclarator.relocate f)⟩

mutual

def Stmt.relocate (f : Pos → Pos) : Stmt → Stmt
  | .ret pos value => .ret (f pos) (value.map (Expr.relocate f))
  | .ifThen pos cond body => .ifThen (f pos) (cond.relocate f) (body.relocate f)
  | .ifThenElse pos cond thenBody elseBody =>
    .ifThenElse (f pos) (cond.relocate f) (thenBody.relocate f) (elseBody.relocate f)
  | .while pos cond body => .while (f pos) (cond.relocate f) (body.relocate f)
  | .block pos stmts => .block (f pos) (Stmt.relocateAll f stmts)
  | .empty pos => .empty (f pos)
  | .vars decl => .vars (decl.relocate f)
  | .expr pos value => .expr (f pos) (value.relocate f)

def Stmt.relocateAll (f : Pos → Pos) : List Stmt → List Stmt
  | [] => []
  | s :: ss => s.relocate f :: Stmt.relocateAll f ss

end

def Param.relocate (f : Pos → Pos) (p : Param) : Param :=
  ⟨f p.pos, p.type.relocate f, p.declarator.relocate f⟩

def FunctionHead.relocate (f : Pos → Pos) (h : FunctionHead) : FunctionHead :=
  ⟨f h.pos, h.type.relocate f, h.declarator.relocate f, f h.paramsPos, h.params.map
    (Param.relocate f)⟩

def Block.relocate (f : Pos → Pos) (b : Block) : Block := ⟨f b.pos, Stmt.relocateAll f b.stmts⟩

def External.relocate (f : Pos → Pos) : External → External
  | .prototype head => .prototype (head.relocate f)
  | .definition head body => .definition (head.relocate f) (body.relocate f)
  | .vars decl => .vars (decl.relocate f)

def Program.relocate (f : Pos → Pos) (p : Program) : Program :=
  ⟨f p.pos, p.externals.map (External.relocate f)⟩

/-! ## Phrases elsewhere -/

section

variable {f : Pos → Pos}

theorem Link.cut_relocate (level : Nat) (links : List Link) :
    Link.cut level (links.map (Link.relocate f)) =
      ((Link.cut level links).1.map (Link.relocate f),
        (Link.cut level links).2.map fun piece =>
          (piece.1.relocate f, piece.2.map (Link.relocate f))) := by
  induction links with
  | nil => rfl
  | cons l links ih =>
    have hop : (l.relocate f).op = l.op := rfl
    simp only [List.map_cons, Link.cut, ih, hop]
    split <;> rfl

/-- Precedence does not depend on positions. -/
theorem Link.group_relocate (levels : List Nat) (first : Expr) (links : List Link) :
    (Link.group levels first links).relocate f =
      Link.group levels (first.relocate f) (links.map (Link.relocate f)) := by
  induction levels generalizing first links with
  | nil =>
    simp only [Link.group]
    induction links generalizing first with
    | nil => rfl
    | cons l links ih =>
      simp only [List.map_cons, List.foldl_cons]
      exact ih _
  | cons level tighter ih =>
    simp only [Link.group, Link.cut_relocate]
    rw [← ih]
    generalize Link.group tighter first _ = left
    induction (Link.cut level links).2 generalizing left with
    | nil => rfl
    | cons piece pieces ihPieces =>
      simp only [List.map_cons, List.foldl_cons]
      rw [ihPieces]
      congr 1
      rw [Link.join, Expr.relocate, ih]
      rfl

theorem Stmt.endsOpen_relocate : ∀ stmt : Stmt, (stmt.relocate f).endsOpen = stmt.endsOpen
  | .ret _ _ | .ifThen _ _ _ | .block _ _ | .empty _ | .vars _ | .expr _ _ => rfl
  | .ifThenElse _ _ _ elseBody => elseBody.endsOpen_relocate
  | .while _ _ body => body.endsOpen_relocate

theorem headKind_relocate (ts : List Token) :
    Parser.headKind (ts.map (Token.relocate f)) = Parser.headKind ts := by
  cases ts <;> rfl

namespace Phrase

variable {ts : List Token} {d : Declarator} {ps : List Param}

theorem Qualifier.relocate {b : Bool} (h : Qualifier ts b) :
    Qualifier (ts.map (Token.relocate f)) b := by
  cases h with
  | absent => exact .absent
  | const ht => exact .const ht

theorem TypeName.relocate {type : TypeSpec} (h : Phrase.TypeName ts type) :
    Phrase.TypeName (ts.map (Token.relocate f)) (type.relocate f) := by
  cases h with
  | @mk before after leading trailing t tag hbefore ht hafter =>
    have hpos : ((before.map (Token.relocate f)).head?.getD (t.relocate f)).pos =
        f (before.head?.getD t).pos := by
      cases before <;> rfl
    show Phrase.TypeName _ ⟨f (before.head?.getD t).pos, tag, leading || trailing⟩
    rw [List.map_append, List.map_cons, ← hpos]
    exact .mk hbefore.relocate ht hafter.relocate

theorem Declared.relocate {ns : List Token} (h : Declared ns d) :
    Declared (ns.map (Token.relocate f)) (d.relocate f) := by
  cases h with
  | @mk stars t hstars ht =>
    have hpos : ((stars.map (Token.relocate f)).head?.getD (t.relocate f)).pos =
        f (stars.head?.getD t).pos := by
      cases stars <;> rfl
    have hkind : ∀ s ∈ stars.map (Token.relocate f), s.kind = .star := by simpa using hstars
    show Declared _ ⟨f (stars.head?.getD t).pos, stars.length, f t.pos, t.text⟩
    rw [List.map_append, ← hpos, ← List.length_map (Token.relocate f)]
    exact .mk hkind ht

mutual

theorem Assignment.relocate {ts : List Token} {e : Expr} :
    Assignment ts e → Assignment (ts.map (Token.relocate f)) (e.relocate f)
  | .value h => .value h.relocate
  | .assign htarget ht hvalue => by
    rw [List.map_append, List.map_cons, Expr.relocate]
    exact .assign htarget.relocate ht hvalue.relocate

theorem Chain.relocate {ts : List Token} {e : Expr} :
    Chain ts e → Chain (ts.map (Token.relocate f)) (e.relocate f)
  | .mk hfirst hlinks => by
    rw [List.map_append, Link.group_relocate]
    exact .mk hfirst.relocate hlinks.relocate

theorem Links.relocate {ts : List Token} {links : List Link} :
    Links ts links → Links (ts.map (Token.relocate f)) (links.map (Link.relocate f))
  | .nil => .nil
  | .cons ht hoperand hlinks => by
    rw [List.map_cons, List.map_append]
    exact .cons ht hoperand.relocate hlinks.relocate

theorem Unary.relocate {ts : List Token} {e : Expr} :
    Unary ts e → Unary (ts.map (Token.relocate f)) (e.relocate f)
  | .plus ht h => .plus ht h.relocate
  | .negative ht hn hvalue => .negative ht hn hvalue
  | .minus ht hts h => by
    rw [Expr.relocate]
    exact .minus ht (by rwa [headKind_relocate]) h.relocate
  | .primary h => .primary h.relocate

theorem Primary.relocate {ts : List Token} {e : Expr} :
    Primary ts e → Primary (ts.map (Token.relocate f)) (e.relocate f)
  | .integer ht hvalue => .integer ht hvalue
  | .character ht hc => .character ht hc
  | .string ht => .string ht
  | .name ht => .name ht
  | .call ht hp hargs => .call ht hp hargs.relocate
  | .paren hp h hq => by
    rw [List.map_cons, List.map_append]
    exact .paren hp h.relocate hq

theorem Arguments.relocate {ts : List Token} {es : List Expr} :
    Arguments ts es → Arguments (ts.map (Token.relocate f)) (Expr.relocateAll f es)
  | .none hq => .none hq
  | .last h hq => by
    rw [List.map_append]
    exact .last h.relocate hq
  | .more h hc hmore => by
    rw [List.map_append, List.map_cons]
    exact .more h.relocate hc hmore.relocate

end

theorem Initialized.relocate {init : Option Initializer} (h : Initialized ts init) :
    Initialized (ts.map (Token.relocate f)) (init.map (Initializer.relocate f)) := by
  cases h with
  | absent => exact .absent
  | value ht h => exact .value ht h.relocate

theorem Variables.relocate {vars : InitDeclarator × List InitDeclarator}
    (h : Variables d ts vars) :
    Variables (d.relocate f) (ts.map (Token.relocate f))
      (vars.1.relocate f, vars.2.map (InitDeclarator.relocate f)) := by
  induction h with
  | last hinit hs =>
    rw [List.map_append]
    exact .last hinit.relocate hs
  | more hinit hc hnext _ ih =>
    rw [List.map_append, List.map_cons, List.map_append]
    exact .more hinit.relocate hc hnext.relocate ih

theorem Declaration.relocate {decl : VarDecl} (h : Declaration ts decl) :
    Declaration (ts.map (Token.relocate f)) (decl.relocate f) := by
  cases h with
  | mk htype hname hvars =>
    rw [List.map_append, List.map_append]
    exact .mk htype.relocate hname.relocate hvars.relocate

theorem Condition.relocate {e : Expr} (h : Condition ts e) :
    Condition (ts.map (Token.relocate f)) (e.relocate f) := by
  cases h with
  | mk hp h hq =>
    rw [List.map_cons, List.map_append]
    exact .mk hp h.relocate hq

theorem Returned.relocate {value : Option Expr} (h : Returned ts value) :
    Returned (ts.map (Token.relocate f)) (value.map (Expr.relocate f)) := by
  cases h with
  | nothing hs => exact .nothing hs
  | value h hs =>
    rw [List.map_append]
    exact .value h.relocate hs

mutual

/-- A phrase stays one when its tokens are moved. -/
theorem Statement.relocate {ts : List Token} {stmt : Stmt} :
    Statement ts stmt → Statement (ts.map (Token.relocate f)) (stmt.relocate f)
  | .ret ht h => .ret ht h.relocate
  | .ifThen ht hcond hbody => by
    rw [List.map_cons, List.map_append]
    exact .ifThen ht hcond.relocate hbody.relocate
  | .ifThenElse ht hcond hthen hclosed hl helse => by
    rw [List.map_cons, List.map_append, List.map_append, List.map_cons]
    exact .ifThenElse ht hcond.relocate hthen.relocate (by rwa [Stmt.endsOpen_relocate])
      hl helse.relocate
  | .while ht hcond hbody => by
    rw [List.map_cons, List.map_append]
    exact .while ht hcond.relocate hbody.relocate
  | .block ht h => .block ht h.relocate
  | .empty ht => .empty ht
  | .vars h => .vars h.relocate
  | .expr h hs => by
    rw [List.map_cons, List.map_append]
    exact .expr h.relocate hs

theorem Statements.relocate {ts : List Token} {stmts : List Stmt} :
    Statements ts stmts → Statements (ts.map (Token.relocate f)) (Stmt.relocateAll f stmts)
  | .nil hq => .nil hq
  | .cons h hmore => by
    rw [List.map_append]
    exact .cons h.relocate hmore.relocate

end

theorem Parameter.relocate {p : Param} (h : Parameter ts p) :
    Parameter (ts.map (Token.relocate f)) (p.relocate f) := by
  cases h with
  | mk htype hname =>
    rw [List.map_append]
    exact .mk htype.relocate hname.relocate

theorem ParameterList.relocate (h : ParameterList ts ps) :
    ParameterList (ts.map (Token.relocate f)) (ps.map (Param.relocate f)) := by
  induction h with
  | last h => exact .last h.relocate
  | more h hc _ ih =>
    rw [List.map_append, List.map_cons]
    exact .more h.relocate hc ih

theorem Parameters.relocate (h : Parameters ts ps) :
    Parameters (ts.map (Token.relocate f)) (ps.map (Param.relocate f)) := by
  cases h with
  | none hq => exact .none hq
  | void hv hq => exact .void hv hq
  | some h hts hq =>
    rw [List.map_append]
    exact .some h.relocate (by rwa [headKind_relocate]) hq

theorem Member.relocate {e : External} (h : Member ts e) :
    Member (ts.map (Token.relocate f)) (e.relocate f) := by
  cases h with
  | prototype htype hname hp hparams hs =>
    simp only [List.map_append, List.map_cons]
    exact .prototype htype.relocate hname.relocate hp hparams.relocate hs
  | definition htype hname hp hparams hb hbody =>
    simp only [List.map_append, List.map_cons]
    exact .definition htype.relocate hname.relocate hp hparams.relocate hb hbody.relocate
  | vars h => exact .vars h.relocate

/-- Tokens that are moved spell the same program, moved. -/
theorem Members.relocate {es : List External} (h : Members ts es) :
    Members (ts.map (Token.relocate f)) (es.map (External.relocate f)) := by
  induction h with
  | nil => exact .nil
  | cons h _ ih =>
    rw [List.map_append]
    exact .cons h.relocate ih

end Phrase

end

end Surface

/-! ## Derivations elsewhere

No rule of the grammar looks at a position. -/

namespace Grammar

open Computability

/-- Whether tokens are in the language does not depend on their positions. -/
def Unplaced (l : Language Token) : Prop :=
  ∀ v w : List Token, v.map Token.spelling = w.map Token.spelling → v ∈ l → w ∈ l

section Unplaced

variable {l m : Language Token}

theorem unplaced_one : Unplaced 1 := by
  rintro _ w hsame rfl
  exact List.map_eq_nil_iff.mp hsame.symm

theorem Unplaced.add (hl : Unplaced l) (hm : Unplaced m) : Unplaced (l + m) := by
  rintro v w hsame (hv | hv)
  · exact .inl (hl v w hsame hv)
  · exact .inr (hm v w hsame hv)

theorem Unplaced.mul (hl : Unplaced l) (hm : Unplaced m) : Unplaced (l * m) := by
  rintro _ w hsame ⟨a, ha, b, hb, rfl⟩
  dsimp only at hsame
  rw [List.map_append] at hsame
  obtain ⟨a', b', rfl, ha', hb'⟩ := List.map_eq_append_iff.mp hsame.symm
  exact Language.append_mem_mul (hl a a' ha'.symm ha) (hm b b' hb'.symm hb)

/-- A list of parts is moved part by part. -/
theorem Unplaced.kstar (hl : Unplaced l) : Unplaced l∗ := by
  let placed : Language Token :=
    {v | ∀ w : List Token, v.map Token.spelling = w.map Token.spelling → w ∈ l∗}
  have hplaced : l∗ ≤ placed := by
    apply kstar_le_of_mul_le_right
    · rintro _ rfl w hsame
      rw [List.map_eq_nil_iff.mp hsame.symm]
      exact Language.nil_mem_kstar l
    · rintro _ ⟨a, ha, b, hb, rfl⟩ w hsame
      dsimp only at hsame
      rw [List.map_append] at hsame
      obtain ⟨a', b', rfl, ha', hb'⟩ := List.map_eq_append_iff.mp hsame.symm
      exact append_mem_kstar (hl a a' ha'.symm ha) (hb b' hb'.symm)
  intro v w hsame hv
  exact hplaced hv w hsame

theorem Unplaced.inf (hl : Unplaced l) (hm : Unplaced m) : Unplaced (l ⊓ m) := fun v w hsame hv =>
  ⟨hl v w hsame hv.1, hm v w hsame hv.2⟩

/-- A language of single tokens that are told by their spelling. -/
theorem unplaced_token {P : Token → Prop}
    (hP : ∀ t u : Token, t.spelling = u.spelling → P t → P u) :
    Unplaced ({w | ∃ t, P t ∧ w = [t]} : Language Token) := by
  rintro _ w hsame ⟨t, ht, rfl⟩
  obtain ⟨u, rfl, hu⟩ := List.map_eq_singleton_iff.mp hsame.symm
  exact ⟨u, hP t u hu.symm ht, rfl⟩

theorem unplaced_word (kind : TokenKind) : Unplaced (word kind) :=
  unplaced_token fun _ _ hsame ht => (congrArg Prod.fst hsame).symm.trans ht

theorem unplaced_operator : Unplaced operator := by
  refine unplaced_token fun t u hsame ht => ?_
  rwa [← (Prod.mk.inj hsame).1]

theorem unplaced_integer (bound : Nat) : Unplaced (integer bound) := by
  rintro _ w hsame ⟨t, ht, hne, hdigits, hle, rfl⟩
  obtain ⟨u, rfl, hu⟩ := List.map_eq_singleton_iff.mp hsame.symm
  obtain ⟨hkind, htext⟩ := Prod.mk.inj hu
  rw [← htext] at hne hdigits hle
  exact ⟨u, hkind.trans ht, hne, hdigits, hle, rfl⟩

theorem unplaced_character : Unplaced character := by
  rintro _ w hsame ⟨t, ht, hlength, rfl⟩
  obtain ⟨u, rfl, hu⟩ := List.map_eq_singleton_iff.mp hsame.symm
  obtain ⟨hkind, htext⟩ := Prod.mk.inj hu
  rw [← htext] at hlength
  exact ⟨u, hkind.trans ht, hlength, rfl⟩

theorem unplaced_notFirst (kind : TokenKind) : Unplaced (notFirst kind) := by
  intro v w hsame hv u hu
  cases v with
  | nil =>
    rw [List.map_eq_nil_iff.mp hsame.symm] at hu
    cases hu
  | cons t v =>
    cases w with
    | nil => cases hu
    | cons t' w =>
      obtain rfl : t' = u := Option.some.inj hu
      have hkind : t.kind = t'.kind := congrArg Prod.fst (List.head_eq_of_cons_eq hsame)
      rw [← hkind]
      exact hv t rfl

end Unplaced

theorem unplaced_rule {ρ : Nonterminal → Language Token} (hρ : ∀ n, Unplaced (ρ n))
    (n : Nonterminal) : Unplaced (rule ρ n) := by
  cases n <;> simp only [rule] <;> apply_rules [hρ, Unplaced.add, Unplaced.mul, Unplaced.kstar,
    Unplaced.inf, unplaced_one, unplaced_word, unplaced_operator, unplaced_integer,
    unplaced_character, unplaced_notFirst]

/-- What is derived does not depend on the positions of the tokens. -/
theorem unplaced_language (n : Nonterminal) : Unplaced (language n) := by
  let placed (n : Nonterminal) : Language Token :=
    {v | ∀ w : List Token, v.map Token.spelling = w.map Token.spelling → w ∈ language n}
  have hplaced : ∀ n, Unplaced (placed n) := fun n v w hsame hv u hu => hv u (hsame.trans hu)
  have hle : ∀ n, placed n ≤ language n := fun n v hv => hv v rfl
  have hclosed : ∀ n, rule placed n ≤ placed n := fun n v hv w hsame =>
    rule_language_le n (rule_mono hle n (unplaced_rule hplaced n v w hsame hv))
  intro v w hsame hv
  exact language_le hclosed n hv w hsame

end Grammar

end CSubset
