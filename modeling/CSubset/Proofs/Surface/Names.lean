import CSubset.Proofs.Surface.Reading
import CSubset.Proofs.Token.Words

/-!
# The names that a program declares

The names in the declarators of a phrase are texts of identifiers in it. So the variables and
parameters of a program have words as names (`Program.word_of_ofText`).
-/

namespace CSubset.Surface

/-- The names of the variables. -/
def VarDecl.names (d : VarDecl) : List String := (d.first :: d.more).map (·.declarator.name)

mutual

/-- The names of the variables that are declared in a statement. -/
def Stmt.names : Stmt → List String
  | .ifThen _ _ body => body.names
  | .ifThenElse _ _ thenBody elseBody => thenBody.names ++ elseBody.names
  | .while _ _ body => body.names
  | .block _ stmts => Stmt.allNames stmts
  | .vars decl => decl.names
  | .ret _ _ | .empty _ | .expr _ _ => []

def Stmt.allNames : List Stmt → List String
  | [] => []
  | s :: ss => s.names ++ Stmt.allNames ss

end

/-- The names of the parameters. -/
def FunctionHead.names (h : FunctionHead) : List String := h.params.map (·.declarator.name)

/-- The names of the variables and parameters that are declared. -/
def External.names : External → List String
  | .prototype head => head.names
  | .definition head body => head.names ++ Stmt.allNames body.stmts
  | .vars decl => decl.names

namespace Phrase

/-! ## Names in phrases -/

variable {P : String → Prop} {ts ts' : List Token} {d : Declarator} {ps : List Param}

/-- The texts of the identifiers satisfy `P`. -/
def Identifiers (P : String → Prop) (ts : List Token) : Prop :=
  ∀ t ∈ ts, t.kind = .identifier → P t.text

@[simp] theorem identifiers_cons {t : Token} :
    Identifiers P (t :: ts) ↔ (t.kind = .identifier → P t.text) ∧ Identifiers P ts :=
  List.forall_mem_cons

@[simp] theorem identifiers_append :
    Identifiers P (ts ++ ts') ↔ Identifiers P ts ∧ Identifiers P ts' :=
  List.forall_mem_append

theorem Declared.named (h : Declared ts d) (hts : Identifiers P ts) : P d.name := by
  cases h with
  | @mk _ t _ ht => exact hts t (by simp) ht

/-- The first declarator stands in front of the phrase. -/
theorem Variables.named {vars : InitDeclarator × List InitDeclarator} (h : Variables d ts vars)
    (hd : P d.name) (hts : Identifiers P ts) :
    ∀ x ∈ (vars.1 :: vars.2).map (·.declarator.name), P x := by
  induction h with
  | last => exact List.forall_mem_singleton.mpr hd
  | more _ _ hnext _ ih =>
    obtain ⟨-, -, hns, hts'⟩ := by simpa only [identifiers_append, identifiers_cons] using hts
    exact List.forall_mem_cons.mpr ⟨hd, ih (hnext.named hns) hts'⟩

theorem Declaration.named {decl : VarDecl} (h : Declaration ts decl) (hts : Identifiers P ts) :
    ∀ x ∈ decl.names, P x := by
  cases h with
  | mk _ hname hvars =>
    obtain ⟨-, hns, hvs⟩ := by simpa only [identifiers_append] using hts
    exact hvars.named (hname.named hns) hvs

mutual

theorem Statement.named {ts : List Token} {stmt : Stmt} :
    Statement ts stmt → Identifiers P ts → ∀ x ∈ stmt.names, P x
  | .ret _ _, _ | .empty _, _ | .expr _ _, _ => nofun
  | .ifThen _ _ hbody, hts | .while _ _ hbody, hts => by
    simp only [identifiers_cons, identifiers_append] at hts
    exact hbody.named hts.2.2
  | .ifThenElse _ _ hthen _ _ helse, hts => by
    simp only [identifiers_cons, identifiers_append] at hts
    exact List.forall_mem_append.mpr ⟨hthen.named hts.2.2.1, helse.named hts.2.2.2.2⟩
  | .block _ h, hts => h.named (identifiers_cons.mp hts).2
  | .vars h, hts => h.named hts

theorem Statements.named {ts : List Token} {stmts : List Stmt} :
    Statements ts stmts → Identifiers P ts → ∀ x ∈ Stmt.allNames stmts, P x
  | .nil _, _ => nofun
  | .cons h hmore, hts =>
    have hts := identifiers_append.mp hts
    List.forall_mem_append.mpr ⟨h.named hts.1, hmore.named hts.2⟩

end

theorem ParameterList.named (h : ParameterList ts ps) (hts : Identifiers P ts) :
    ∀ x ∈ ps.map (·.declarator.name), P x := by
  have hparam {us : List Token} {p : Param} : Parameter us p → Identifiers P us →
    P p.declarator.name
    | .mk _ hname, hus => hname.named (identifiers_append.mp hus).2
  induction h with
  | last h => exact List.forall_mem_singleton.mpr (hparam h hts)
  | more h _ _ ih =>
    simp only [identifiers_cons, identifiers_append] at hts
    exact List.forall_mem_cons.mpr ⟨hparam h hts.1, ih hts.2.2⟩

theorem Parameters.named (h : Parameters ts ps) (hts : Identifiers P ts) :
    ∀ x ∈ ps.map (·.declarator.name), P x := by
  cases h with
  | none | void => nofun
  | some h => exact h.named (identifiers_append.mp hts).1

theorem Member.named {e : External} (h : Member ts e) (hts : Identifiers P ts) :
    ∀ x ∈ e.names, P x := by
  cases h with
  | @prototype _ _ ps _ a _ _ _ _ _ _ _ hparams =>
    simp only [identifiers_cons, identifiers_append] at hts
    exact hparams.named (identifiers_cons.mpr ⟨hts.2.2.2.1, hts.2.2.2.2.1⟩)
  | @definition _ _ ps _ _ a _ _ _ _ _ _ _ _ hparams _ hbody =>
    simp only [identifiers_cons, identifiers_append] at hts
    obtain ⟨-, -, -, ha, hps, -, hbs⟩ := hts
    exact List.forall_mem_append.mpr ⟨hparams.named (identifiers_cons.mpr ⟨ha, hps⟩),
      hbody.named hbs⟩
  | vars h => exact h.named hts

theorem Members.named {es : List External} (h : Members ts es) (hts : Identifiers P ts) :
    ∀ x ∈ es.flatMap External.names, P x := by
  induction h with
  | nil => nofun
  | cons h _ ih =>
    obtain ⟨hts, hts'⟩ := identifiers_append.mp hts
    rw [List.flatMap_cons]
    exact List.forall_mem_append.mpr ⟨h.named hts, ih hts'⟩

end Phrase

/-- The variables and parameters of a program have words as names. -/
theorem Program.word_of_ofText {text : List Char} {program : Program}
    (h : Program.ofText text = .ok program) :
    ∀ x ∈ program.externals.flatMap External.names, IsWord x :=
  (Program.ofText_eq_ok_iff.mp h).1.named (TokenStream.word_of_identifier text)

end CSubset.Surface
