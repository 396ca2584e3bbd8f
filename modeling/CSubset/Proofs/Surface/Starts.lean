import CSubset.Proofs.Surface.Gaps
import CSubset.Proofs.Surface.Kinds
import CSubset.Proofs.Surface.Nesting

/-!
# Where declarations begin

A type behind a semicolon or a brace, or at the very beginning of a program, begins a statement of a
block or an external declaration (`Phrase.Members.start`). From there to the end of the block, or of
the program, other statements or declarations may stand.
-/

namespace CSubset.Surface

open Phrase

variable {rest before front : List Token}

/-- The kinds of token behind which a statement of a block or an external declaration begins. -/
def isBoundary (kind : TokenKind) : Bool := [.semicolon, .leftBrace, .rightBrace].contains kind

/-- A statement of a block or an external declaration may begin behind these tokens. -/
def AtStart (before : List Token) : Prop := ∀ t ∈ before.getLast?, isBoundary t.kind = true

instance (before : List Token) : Decidable (AtStart before) :=
  inferInstanceAs (Decidable (∀ t ∈ before.getLast?, _ = _))

section AtStart

variable {us vs : List Token}

theorem AtStart.tail (h : AtStart (us ++ vs)) : AtStart vs := by
  by_cases hvs : vs = []
  · subst hvs
    nofun
  · rwa [AtStart, List.getLast?_append_of_ne_nil _ hvs] at h

theorem AtStart.of_cons {t : Token} (h : AtStart (t :: us)) : AtStart us :=
  (show AtStart ([t] ++ us) from h).tail

theorem not_atStart (hne : us ≠ []) (h : ∀ t ∈ us, isBoundary t.kind = false) : ¬ AtStart us := by
  intro hstart
  rcases List.eq_nil_or_concat us with rfl | ⟨us, u, rfl⟩
  · exact hne rfl
  · have hlast := hstart u (by simp)
    rw [h u (by simp)] at hlast
    cases hlast

end AtStart

/-! ## Kinds of token -/

theorem isBoundary_of_inExpression {kind : TokenKind} (h : inExpression kind = true) :
    isBoundary kind = false := by
  revert h
  cases kind <;> decide

theorem isBoundary_of_inHead (kind : TokenKind) (h : inHead kind = true) :
    isBoundary kind = false := by
  revert h
  cases kind <;> decide

namespace Phrase

variable {ts : List Token} {d : Declarator}

theorem Condition.kinds {e : Expr} (h : Condition ts e) : ∀ t ∈ ts, inExpression t.kind = true := by
  cases h with
  | mk hp h hq =>
    refine List.forall_mem_cons.mpr
      ⟨by rw [hp]; rfl, List.forall_mem_append.mpr ⟨h.compact.kinds, ?_⟩⟩
    exact List.forall_mem_singleton.mpr (by rw [hq]; rfl)

theorem Returned.kinds {value : Option Expr} (h : Returned ts value) :
    ∀ t ∈ ts, t.kind.startsType = false := by
  cases h with
  | nothing hs => exact List.forall_mem_singleton.mpr (by rw [hs]; rfl)
  | value h hs =>
    refine List.forall_mem_append.mpr
      ⟨fun t ht => startsType_of_inExpression (h.compact.kinds t ht), ?_⟩
    exact List.forall_mem_singleton.mpr (by rw [hs]; rfl)

theorem Declared.no_type {ns : List Token} (h : Declared ns d) :
    ∀ t ∈ ns, t.kind.startsType = false := by
  intro t ht
  rcases h.kinds t ht with hkind | hkind <;> rw [hkind] <;> rfl

theorem Variables.kinds {vars : InitDeclarator × List InitDeclarator}
    (h : Variables d ts vars) : ∀ t ∈ ts, t.kind.startsType = false := by
  have hinit {ts : List Token} {init : Option Initializer} (h : Initialized ts init) :
      ∀ t ∈ ts, t.kind.startsType = false := by
    cases h with
    | absent => nofun
    | value ht h =>
      refine List.forall_mem_cons.mpr
        ⟨by rw [ht]; rfl, fun t ht => startsType_of_inExpression (h.compact.kinds t ht)⟩
  induction h with
  | last h hs =>
    exact List.forall_mem_append.mpr ⟨hinit h, List.forall_mem_singleton.mpr (by rw [hs]; rfl)⟩
  | more h hc hnext _ ih =>
    refine List.forall_mem_append.mpr ⟨hinit h, List.forall_mem_cons.mpr ⟨by rw [hc]; rfl, ?_⟩⟩
    exact List.forall_mem_append.mpr ⟨hnext.no_type, ih⟩

/-- In a declaration only the type begins with a type, and nothing in it is behind a boundary. -/
theorem Declaration.start {before rest : List Token} {decl : VarDecl} {t : Token}
    (h : Declaration ts decl) (heq : before ++ t :: rest = ts) (ht : t.kind.startsType = true)
    (hstart : AtStart before) : before = [] := by
  cases h with
  | mk htype hname hvars =>
    rcases split_append heq with ⟨mid, rfl, -⟩ | ⟨mid, rfl, hmid⟩
    · by_contra hne
      refine not_atStart hne (fun u hu => ?_) hstart
      exact isBoundary_of_inHead _ (htype.headKinds u (List.mem_append_left _ hu))
    · exact (not_among hmid.symm ht (List.forall_mem_append.mpr ⟨hname.no_type, hvars.kinds⟩)).elim

end Phrase

/-! ## Lists and blocks -/

/-- What stands from a place on to the end of a list of phrases may be replaced by other phrases. -/
def InList {β : Type} (L : List Token → List β → Prop) (before rest : List Token) : Prop :=
  ∃ ys front, L rest ys ∧ ∀ us zs, L us zs → L (before ++ us) (front ++ zs)

theorem InList.nil {β : Type} {L : List Token → List β → Prop} {ys : List β} (h : L rest ys) :
    InList L [] rest :=
  ⟨ys, [], h, fun _ _ hus => hus⟩

theorem InList.cons {β : Type} {L : List Token → List β → Prop} {ts : List Token} {y : β}
    (h : InList L before rest) (hcons : ∀ us zs, L us zs → L (ts ++ us) (y :: zs)) :
    InList L (ts ++ before) rest := by
  obtain ⟨ys, front, hrest, hlist⟩ := h
  refine ⟨ys, y :: front, hrest, fun us zs hus => ?_⟩
  rw [List.append_assoc]
  exact hcons _ _ (hlist us zs hus)

/-- What stands from a place on to the end of a block may be replaced by other statements. -/
def InBlock {α : Type} (P : List Token → α → Prop)
    (C : (List Stmt → Tree Pos) → (List Stmt → α) → Prop) (before rest : List Token) : Prop :=
  ∃ ts outer ss place items F, rest = ts ++ outer ∧ Statements ts ss ∧
    Gap Statements P
    (C fun zs => .seq place .block ((items ++ Stmt.allOutlines zs).map some)) before outer F

theorem InBlock.carry {α β : Type} {P : List Token → α → Prop}
    {C : (List Stmt → Tree Pos) → (List Stmt → α) → Prop} {Q : List Token → β → Prop}
    {C' : (List Stmt → Tree Pos) → (List Stmt → β) → Prop} {back : List Token} {g : α → β}
    (h : InBlock P C before rest) (hg : ∀ H, Carries P (C H) Q (C' H) front back g) :
    InBlock Q C' (front ++ before) (rest ++ back) := by
  obtain ⟨ts, outer, ss, place, items, F, rfl, hts, hgap⟩ := h
  exact ⟨ts, outer ++ back, ss, place, items, _, List.append_assoc _ _ _, hts, hgap.carry (hg _)⟩

/-- Carried outwards where nothing is added behind. -/
theorem InBlock.carry_nil {α β : Type} {P : List Token → α → Prop}
    {C : (List Stmt → Tree Pos) → (List Stmt → α) → Prop} {Q : List Token → β → Prop}
    {C' : (List Stmt → Tree Pos) → (List Stmt → β) → Prop} {g : α → β}
    (h : InBlock P C before rest) (hg : ∀ H, Carries P (C H) Q (C' H) front [] g) :
    InBlock Q C' (front ++ before) rest := by
  have hcarried := h.carry hg
  rwa [List.append_nil] at hcarried

/-- The list of the statements of a block. -/
theorem InList.block {α : Type} {P : List Token → α → Prop}
    {C : (List Stmt → Tree Pos) → (List Stmt → α) → Prop} (h : InList Statements before rest)
    (front : List Token) (place : Pos) (g : List Stmt → α)
    (hphrase : ∀ ts ss, Statements ts ss → P (front ++ ts) (g ss))
    (hholds : ∀ (H : List Stmt → Tree Pos) (F : List Stmt → List Stmt),
      (∀ zs, H zs = .seq place .block ((Stmt.allOutlines (F zs)).map some)) →
      C H fun zs => g (F zs)) : InBlock P C (front ++ before) rest := by
  obtain ⟨ss, first, hrest, hlist⟩ := h
  refine ⟨rest, [], ss, place, Stmt.allOutlines first,
    fun zs => g (first ++ zs), by simp, hrest, ?_, ?_⟩
  · intro us zs hus
    rw [List.append_nil, List.append_assoc]
    exact hphrase _ _ (hlist us zs hus)
  · refine hholds _ _ fun zs => ?_
    rw [Stmt.allOutlines_eq (first ++ zs), List.flatMap_append, ← Stmt.allOutlines_eq,
      ← Stmt.allOutlines_eq]

namespace Phrase

/-! ## Where a type begins something -/

section Start

variable {t : Token} {before rest : List Token} {ts : List Token}

/-- Behind a condition no declaration begins. -/
theorem Condition.split {cs bs : List Token} {cond : Expr} {k : Token} (hcond : Condition cs cond)
    (hk : k.kind.startsType = false) (heq : before ++ t :: rest = k :: (cs ++ bs))
    (ht : t.kind.startsType = true) (hstart : AtStart before) :
    ∃ mid, before = (k :: cs) ++ mid ∧ bs = mid ++ t :: rest ∧ AtStart mid ∧ mid ≠ [] := by
  have hkinds : ∀ u ∈ k :: cs, u.kind.startsType = false :=
    List.forall_mem_cons.mpr ⟨hk, fun u hu => startsType_of_inExpression (hcond.kinds u hu)⟩
  obtain ⟨mid, rfl, hbs⟩ := split_behind (k :: cs) heq ht hkinds
  refine ⟨mid, rfl, hbs, hstart.tail, ?_⟩
  rintro rfl
  rw [List.append_nil] at hstart
  refine not_atStart ?_ (fun u hu => isBoundary_of_inExpression (hcond.kinds u hu)) hstart.of_cons
  cases hcond with
  | mk _ _ _ => simp

mutual

/-- Inside a statement a type can begin only a declaration in a block. -/
theorem Statement.start {ts before rest : List Token} {s : Stmt} {t : Token}
    (ht : t.kind.startsType = true) (hstart : AtStart before) (hne : before ≠ []) :
    Statement ts s → before ++ t :: rest = ts →
      InBlock (Ending s.endsOpen) StmtHolds before (t :: rest)
  | .ret hk h, heq => (not_among heq ht (List.forall_mem_cons.mpr ⟨by rw [hk]; rfl, h.kinds⟩)).elim
  | .ifThen hk hcond hbody, heq => by
    obtain ⟨mid, rfl, hbs, hmid, hmidne⟩ := hcond.split (by rw [hk]; rfl) heq ht hstart
    exact (hbody.start ht hmid hmidne hbs.symm).carry_nil fun _ => carries_ifThen hk hcond
  | .ifThenElse (l := l) hk hcond hthen hclosed hl helse, heq => by
    obtain ⟨mid, rfl, hbodies, hmid, hmidne⟩ := hcond.split (by rw [hk]; rfl) heq ht hstart
    rw [Stmt.endsOpen]
    rcases split_between hbodies.symm ht
      (by rw [hl]; rfl) with ⟨inner, hbs, rfl⟩ | ⟨inner, rfl, hbs'⟩
    · have hblock := hthen.start ht hmid hmidne hbs.symm
      rw [hclosed] at hblock
      exact hblock.carry fun _ => carries_then hk hcond hl helse
    · -- An `else` is no boundary, so the type is not the first token behind it.
      have hinner : inner ≠ [] := by
        rintro rfl
        rw [List.append_nil] at hmid
        exact not_atStart (List.cons_ne_nil l [])
          (List.forall_mem_singleton.mpr (by rw [hl]; rfl)) hmid.tail
      have hblock := (helse.start ht hmid.tail hinner hbs'.symm).carry_nil
        fun _ => carries_else hk hcond hthen hclosed hl
      simpa using hblock
  | .while hk hcond hbody, heq => by
    obtain ⟨mid, rfl, hbs, hmid, hmidne⟩ := hcond.split (by rw [hk]; rfl) heq ht hstart
    exact (hbody.start ht hmid hmidne hbs.symm).carry_nil fun _ => carries_while hk hcond
  | .block (t := k) hk h, heq => by
    obtain ⟨mid, rfl, hts⟩ := split_cons heq ht (by rw [hk]; rfl)
    rcases h.start ht hstart.of_cons hts.symm with hlist | hblock
    · refine hlist.block [k] k.pos (Stmt.block k.pos) (fun _ _ h => ⟨.block hk h, rfl⟩)
        fun H F hH => ?_
      have hholds : Holds H fun zs => .seq k.pos .block ((Stmt.allOutlines (F zs)).map some) :=
        ⟨[], fun zs => (hH zs).symm⟩
      exact ⟨hholds.one, hholds⟩
    · exact hblock.carry_nil fun _ => carries_block hk
  | .empty hk, heq => (not_singleton heq ht (by rw [hk]; rfl)).elim
  | .vars h, heq => absurd (h.start heq ht hstart) hne
  | .expr h hs, heq => by
    refine (not_among (heq.trans (List.cons_append ..).symm) ht ?_).elim
    refine List.forall_mem_append.mpr
      ⟨fun u hu => startsType_of_inExpression (h.compact.kinds u hu), ?_⟩
    exact List.forall_mem_singleton.mpr (by rw [hs]; rfl)

theorem Statements.start {ts before rest : List Token} {ss : List Stmt} {t : Token}
    (ht : t.kind.startsType = true) (hstart : AtStart before) :
    Statements ts ss → before ++ t :: rest = ts →
      InList Statements before (t :: rest) ∨ InBlock Statements StmtsHold before (t :: rest)
  | .nil hq, heq => (not_singleton heq ht (by rw [hq]; rfl)).elim
  | .cons h hmore, heq => by
    -- With nothing in front of it the type begins this list, and otherwise it is inside the first
    -- statement or behind it.
    by_cases hne : before = []
    · subst hne
      have hlist := Statements.cons h hmore
      rw [← heq] at hlist
      exact .inl (.nil hlist)
    rcases split_append heq with ⟨mid, hts, rfl⟩ | ⟨mid, rfl, hts'⟩
    · exact .inr ((h.start ht hstart hne hts.symm).carry fun _ => carries_first hmore)
    · rcases hmore.start ht hstart.tail hts'.symm with hlist | hblock
      · exact .inl (hlist.cons fun _ _ => .cons h)
      · exact .inr (hblock.carry_nil fun _ => carries_later h)

end

/-- Inside a definition it is a declaration of the body. -/
theorem Member.start {before rest : List Token} {e : External} {t : Token} (h : Member ts e)
    (ht : t.kind.startsType = true) (hstart : AtStart before) (hne : before ≠ [])
    (heq : before ++ t :: rest = ts) : InBlock Member MemberHolds before (t :: rest) := by
  cases h with
  | @prototype ts ns ps p a s type d params htype hname hp hparams hs =>
    -- A boundary is only at the very end.
    have heq : before ++ t :: rest = (ts ++ (ns ++ p :: a :: ps)) ++ [s] := by simp [heq]
    obtain ⟨mid, hhead, -⟩ := split_concat heq ht (by rw [hs]; rfl)
    refine absurd hstart (not_atStart hne fun u hu => ?_)
    exact function_kinds isBoundary_of_inHead rfl htype hname hp hparams u
      (by rw [hhead]; exact List.mem_append_left _ hu)
  | @definition ts ns ps bs p a b type d params stmts htype hname hp hparams hb hbody =>
    have heq : before ++ t :: rest = (ts ++ (ns ++ p :: a :: ps)) ++ b :: bs := by simp [heq]
    rcases split_between heq ht (by rw [hb]; rfl) with ⟨mid, hhead, -⟩ | ⟨mid, rfl, hbs⟩
    · refine absurd hstart (not_atStart hne fun u hu => ?_)
      exact function_kinds isBoundary_of_inHead rfl htype hname hp hparams u
        (by rw [hhead]; exact List.mem_append_left _ hu)
    · rw [show ts ++ (ns ++ p :: a :: ps) ++ [b] = ts ++ (ns ++ p :: a :: (ps ++ [b])) by simp]
      rcases hbody.start ht hstart.tail hbs.symm with hlist | hblock
      · refine hlist.block _ b.pos
          (fun ss => .definition ⟨type.pos, type, d, a.pos, params⟩ ⟨b.pos, ss⟩)
          (fun us ss h => ?_) fun H F hH => ?_
        · have hphrase := Member.definition htype hname hp hparams hb h
          simpa using hphrase
        · have hholds : Holds H fun zs => .seq b.pos .block ((Stmt.allOutlines (F zs)).map some) :=
            ⟨[], fun zs => (hH zs).symm⟩
          exact (hholds.frame (.third type.pos .definition (some type.outline)
            (some (FunctionHead.signature ⟨type.pos, type, d, a.pos, params⟩)))).one
      · exact hblock.carry_nil fun _ => carries_definition htype hname hp hparams hb
  | vars h => exact absurd (h.start heq ht hstart) hne

/-- A type behind a boundary begins an external declaration or a statement of a block. -/
theorem Members.start {before rest : List Token} {es : List External} {t : Token}
    (h : Members ts es) (ht : t.kind.startsType = true) (hstart : AtStart before)
    (heq : before ++ t :: rest = ts) :
    InList Members before (t :: rest) ∨ InBlock Members MembersHold before (t :: rest) := by
  induction h generalizing before with
  | nil => simp at heq
  | @cons ts ts' e es h hmore ih =>
    by_cases hne : before = []
    · subst hne
      have hlist := Members.cons h hmore
      rw [← heq] at hlist
      exact .inl (.nil hlist)
    rcases split_append heq with ⟨mid, hts, rfl⟩ | ⟨mid, rfl, hts'⟩
    · exact .inr ((h.start ht hstart hne hts.symm).carry fun _ => carries_firstMember hmore)
    · rcases ih hstart.tail hts'.symm with hlist | hblock
      · exact .inl (hlist.cons fun _ _ => .cons h)
      · exact .inr (hblock.carry_nil fun _ => carries_laterMembers h)

end Start

end Phrase

end CSubset.Surface
