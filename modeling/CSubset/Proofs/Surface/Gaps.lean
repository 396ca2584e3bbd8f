import CSubset.Proofs.Surface.Phrases
import CSubset.Proofs.Tree.Context
import CSubset.Proofs.Tree.Outline

/-!
# Phrases with a gap

A part of a phrase may be replaced by another part of the same kind. The result is again a phrase
(`Gap`), and its outline is the old one with another tree in one place (`Holds`). Gaps are carried
outwards through the cases of the phrases one by one (`Carries`).
-/

namespace CSubset.Surface

open Phrase
open CSubset.Tree (Context Frame)

section Gaps

variable {η α β : Type} {H T : η → Tree Pos} {G : η → List (Tree Pos)} {t l : Token} {cond : Expr}
  {cs ts after bs ts' : List Token} {isOpen : Bool}

/-- The tree `T z` is `H z` in a context that does not depend on `z`. -/
def Holds (H T : η → Tree Pos) : Prop := ∃ context : Context Pos, ∀ z, T z = context.fill (H z)

/-- One of the trees holds `H z`, and the others do not depend on `z`. -/
def HoldsOne (H : η → Tree Pos) (G : η → List (Tree Pos)) : Prop :=
  ∃ before T after, Holds H T ∧ ∀ z, G z = before ++ T z :: after

theorem Holds.refl (H : η → Tree Pos) : Holds H H := ⟨[], fun _ => rfl⟩

/-- The gap lies one node deeper. -/
theorem Holds.frame (h : Holds H T) (frame : Frame Pos) : Holds H fun z => frame.fill (T z) := by
  obtain ⟨context, hcontext⟩ := h
  exact ⟨frame :: context, fun z => congrArg frame.fill (hcontext z)⟩

theorem Holds.one (h : Holds H T) : HoldsOne H fun z => [T z] := ⟨[], T, [], h, fun _ => rfl⟩

theorem HoldsOne.behind (h : HoldsOne H G) (front : List (Tree Pos)) :
    HoldsOne H fun z => front ++ G z := by
  obtain ⟨before, T, after, hT, hG⟩ := h
  exact ⟨front ++ before, T, after, hT, fun z => by simp [hG]⟩

theorem HoldsOne.before (h : HoldsOne H G) (back : List (Tree Pos)) :
    HoldsOne H fun z => G z ++ back := by
  obtain ⟨before, T, after, hT, hG⟩ := h
  exact ⟨before, T, after ++ back, hT, fun z => by simp [hG]⟩

theorem HoldsOne.seq (h : HoldsOne H G) (l : Pos) (form : SeqForm) :
    Holds H fun z => .seq l form ((G z).map some) := by
  obtain ⟨before, T, after, hT, hG⟩ := h
  have hframe := hT.frame (.item l form (before.map some) (after.map some))
  simpa [hG, Frame.fill] using hframe

/-- Whatever fits between `before` and `after` makes a phrase there, and the syntax of the phrase
has a gap for it. -/
structure Gap (Fits : List Token → η → Prop) (P : List Token → α → Prop) (C : (η → α) → Prop)
    (before after : List Token) (F : η → α) : Prop where
  phrase : ∀ us z, Fits us z → P (before ++ (us ++ after)) (F z)
  holds : C F

/-- With `front` before it and `back` behind it, a phrase of one kind becomes one of another kind,
and its gap one of that. -/
structure Carries (P : List Token → α → Prop) (C : (η → α) → Prop) (Q : List Token → β → Prop)
    (C' : (η → β) → Prop) (front back : List Token) (g : α → β) : Prop where
  phrase : ∀ ts y, P ts y → Q (front ++ (ts ++ back)) (g y)
  holds : ∀ F, C F → C' fun z => g (F z)

theorem Gap.mono {Fits Fits' : List Token → η → Prop} {P : List Token → α → Prop}
    {C : (η → α) → Prop} {before : List Token} {F : η → α} (h : Gap Fits P C before after F)
    (hfits : ∀ us z, Fits' us z → Fits us z) : Gap Fits' P C before after F :=
  ⟨fun us z hz => h.phrase us z (hfits us z hz), h.holds⟩

/-- A phrase with a gap is put into a longer one. -/
theorem Gap.carry {Fits : List Token → η → Prop} {P : List Token → α → Prop} {C : (η → α) → Prop}
    {Q : List Token → β → Prop} {C' : (η → β) → Prop} {before front back : List Token} {F : η → α}
    {g : α → β} (h : Gap Fits P C before after F) (hg : Carries P C Q C' front back g) :
    Gap Fits Q C' (front ++ before) (after ++ back) fun z => g (F z) := by
  refine ⟨fun us z hz => ?_, hg.holds F h.holds⟩
  have hphrase := hg.phrase _ _ (h.phrase us z hz)
  simpa using hphrase

/-! ## Statements

Each form of a statement carries a gap in a part of it on to the whole. -/

/-- A statement that has a gap, also where it is the body of another one. -/
structure StmtHolds (H : η → Tree Pos) (F : η → Stmt) : Prop where
  nodes : HoldsOne H fun z => (F z).outlines
  body : Holds H fun z => (F z).bodyOutline (F z).outlines

def StmtsHold (H : η → Tree Pos) (F : η → List Stmt) : Prop :=
  HoldsOne H fun z => Stmt.allOutlines (F z)

/-- A statement behind which an `else` belongs to it or not. -/
def Ending (isOpen : Bool) (ts : List Token) (s : Stmt) : Prop :=
  Statement ts s ∧ s.endsOpen = isOpen

theorem carries_block (ht : t.kind = .leftBrace) :
    Carries Statements (StmtsHold H) (Ending false) (StmtHolds H) [t] [] (Stmt.block t.pos) where
  phrase ts ss h := by
    rw [List.append_nil]
    exact ⟨.block ht h, rfl⟩
  holds F h := ⟨(h.seq _ _).one, h.seq _ _⟩

theorem carries_ifThen (ht : t.kind = .kwIf) (hcond : Condition cs cond) :
    Carries (Ending isOpen) (StmtHolds H) (Ending true) (StmtHolds H) (t :: cs) []
      (Stmt.ifThen t.pos cond) where
  phrase ts s h := by
    rw [List.append_nil]
    exact ⟨.ifThen ht hcond h.1, rfl⟩
  holds F h := by
    have hnodes := (h.body.frame (.right t.pos .ifThen (some cond.outline))).one
    exact ⟨hnodes, hnodes.seq t.pos .block⟩

theorem carries_then {elseBody : Stmt} (ht : t.kind = .kwIf) (hcond : Condition cs cond)
    (hl : l.kind = .kwElse) (helse : Statement bs elseBody) :
    Carries (Ending false) (StmtHolds H) (Ending elseBody.endsOpen) (StmtHolds H)
      (t :: cs) (l :: bs)
      (Stmt.ifThenElse t.pos cond · elseBody) where
  phrase ts s h := ⟨.ifThenElse ht hcond h.1 h.2 hl helse, rfl⟩
  holds F h := by
    have hnodes := (h.body.frame (.second t.pos .ifThenElse (some cond.outline)
      (some (elseBody.bodyOutline elseBody.outlines)))).one
    exact ⟨hnodes, hnodes.seq t.pos .block⟩

theorem carries_else {thenBody : Stmt} (ht : t.kind = .kwIf) (hcond : Condition cs cond)
    (hthen : Statement bs thenBody) (hclosed : thenBody.endsOpen = false) (hl : l.kind = .kwElse) :
    Carries (Ending isOpen) (StmtHolds H) (Ending isOpen) (StmtHolds H)
      (t :: (cs ++ (bs ++ [l]))) []
      (Stmt.ifThenElse t.pos cond thenBody) where
  phrase ts s h := by
    have hphrase := Statement.ifThenElse ht hcond hthen hclosed hl h.1
    exact ⟨by simpa using hphrase, h.2⟩
  holds F h := by
    have hnodes := (h.body.frame (.third t.pos .ifThenElse (some cond.outline)
      (some (thenBody.bodyOutline thenBody.outlines)))).one
    exact ⟨hnodes, hnodes.seq t.pos .block⟩

theorem carries_while (ht : t.kind = .kwWhile) (hcond : Condition cs cond) :
    Carries (Ending isOpen) (StmtHolds H) (Ending isOpen) (StmtHolds H) (t :: cs) []
      (Stmt.while t.pos cond) where
  phrase ts s h := by
    rw [List.append_nil]
    exact ⟨.while ht hcond h.1, h.2⟩
  holds F h := by
    have hnodes := (h.body.frame (.right t.pos .while (some cond.outline))).one
    exact ⟨hnodes, hnodes.seq t.pos .block⟩

theorem carries_first {ss : List Stmt} (hmore : Statements ts' ss) :
    Carries (Ending isOpen) (StmtHolds H) Statements (StmtsHold H) [] ts' (· :: ss) where
  phrase ts s h := by
    rw [List.nil_append]
    exact .cons h.1 hmore
  holds F h := h.nodes.before (Stmt.allOutlines ss)

theorem carries_later {s : Stmt} (h : Statement ts s) :
    Carries Statements (StmtsHold H) Statements (StmtsHold H) ts [] (s :: ·) where
  phrase ts' ss hmore := by
    rw [List.append_nil]
    exact .cons h hmore
  holds F hF := hF.behind s.outlines

def MemberHolds (H : η → Tree Pos) (F : η → External) : Prop := HoldsOne H fun z => (F z).outlines

def MembersHold (H : η → Tree Pos) (F : η → List External) : Prop :=
  HoldsOne H fun z => (F z).flatMap External.outlines

theorem carries_definition {ns ps : List Token} {p a b : Token} {type : TypeSpec} {d : Declarator}
    {params : List Param} (htype : TypeName ts type) (hname : Declared ns d)
    (hp : p.kind = .leftParen) (hparams : Parameters (a :: ps) params) (hb : b.kind = .leftBrace) :
    Carries Statements (StmtsHold H) Member (MemberHolds H) (ts ++ (ns ++ p :: a :: (ps ++ [b]))) []
      fun ss => External.definition ⟨type.pos, type, d, a.pos, params⟩ ⟨b.pos, ss⟩ where
  phrase bs ss h := by
    have hphrase := Member.definition htype hname hp hparams hb h
    simpa using hphrase
  holds F h :=
    ((h.seq b.pos .block).frame (.third type.pos .definition (some type.outline)
      (some (FunctionHead.signature ⟨type.pos, type, d, a.pos, params⟩)))).one

theorem carries_firstMember {es : List External} (hmore : Members ts' es) :
    Carries Member (MemberHolds H) Members (MembersHold H) [] ts' (· :: es) where
  phrase ts e h := by
    rw [List.nil_append]
    exact .cons h hmore
  holds F h := h.before (es.flatMap External.outlines)

theorem carries_laterMembers {e : External} (h : Member ts e) :
    Carries Members (MembersHold H) Members (MembersHold H) ts [] (e :: ·) where
  phrase ts' es hmore := by
    rw [List.append_nil]
    exact .cons h hmore
  holds F hF := hF.behind e.outlines

end Gaps

end CSubset.Surface
