import CSubset.Proofs.Surface.Gaps
import CSubset.Proofs.Surface.Kinds

/-!
# Operands in expressions

An integer or a string in an expression is an operand of it, or an integer behind a minus sign is.
In its place any other operand may stand, and the tree of the expression has that of the operand in
one place (`Phrase.Assignment.find`). The exception is an integer directly behind a minus sign:
there the two are one operand.
-/

namespace CSubset.Surface

open Phrase
open CSubset.Surface.Parser (headKind integerValue?)

/-- Where the first token stands. -/
def headPos? (ts : List Token) : Option Pos := ts.head?.map Token.pos

/-- A phrase that begins at the position. -/
def Pinned {α : Type} (pos : Pos) (P : List Token → α → Prop) (ts : List Token) (y : α) : Prop :=
  P ts y ∧ headPos? ts = some pos

section Holes

variable {η : Type} {H : η → Tree Pos} {G : η → Expr} {t c p q : Token} {ts ts' : List Token}
  {l : Link} {level : Nat} {links : List Link} {op : Operator}

/-- The expression has a gap. -/
def ExprHolds (H : η → Tree Pos) (F : η → Expr) : Prop := Holds H fun z => (F z).outline

/-- The item `x z` stands at one place of the list, and the others do not depend on `z`. -/
def Gapped {α : Type} (x : η → α) (F : η → List α) : Prop :=
  ∃ front back, ∀ z, F z = front ++ x z :: back

/-- One of the operands has a gap. -/
def LinksHold (H : η → Tree Pos) (F : η → List Link) : Prop :=
  ∃ pos op G, ExprHolds H G ∧ Gapped (fun z => ⟨pos, op, G z⟩) F

/-- One of the arguments has a gap. -/
def ArgumentsHold (H : η → Tree Pos) (F : η → List Expr) : Prop :=
  HoldsOne H fun z => Expr.outlines (F z)

theorem Gapped.head {α : Type} (x : η → α) (back : List α) : Gapped x fun z => x z :: back :=
  ⟨[], back, fun _ => rfl⟩

theorem Gapped.cons {α : Type} {x : η → α} {F : η → List α} (h : Gapped x F) (y : α) :
    Gapped x fun z => y :: F z := by
  obtain ⟨front, back, hF⟩ := h
  exact ⟨y :: front, back, fun z => congrArg (y :: ·) (hF z)⟩

/-! ## Chains -/

theorem ExprHolds.binary_right (h : ExprHolds H G) (pos : Pos) (op : Operator) (left : Expr) :
    ExprHolds H fun z => .binary pos op left (G z) :=
  h.frame (.right pos (binaryForm op) (some left.outline))

/-- The first operand is joined with the others from left to right. -/
theorem ExprHolds.foldl {α : Type} (h : ExprHolds H G) (link : α → Link) (right : α → Expr)
    (xs : List α) :
    ExprHolds H fun z => xs.foldl (fun left x => (link x).join left (right x)) (G z) := by
  induction xs generalizing G with
  | nil => exact h
  | cons x xs ih =>
    exact ih (h.frame (.left (link x).pos (binaryForm (link x).op) (some (right x).outline)))

theorem ExprHolds.pieces (h : ExprHolds H G) (tighter : List Nat)
    (pieces : List (Link × List Link)) :
    ExprHolds H fun z =>
      pieces.foldl
        (fun left piece => piece.1.join left (Link.group tighter piece.1.operand piece.2)) (G z) :=
  h.foldl (·.1) (fun piece => Link.group tighter piece.1.operand piece.2) pieces

theorem Link.cut_cons_of_eq (h : l.op.level = level) (links : List Link) :
    Link.cut level (l :: links) = ([], (l, (Link.cut level links).1) :: (Link.cut level links).2) :=
  if_pos h

theorem Link.cut_cons_of_ne (h : l.op.level ≠ level) (links : List Link) :
    Link.cut level (l :: links) = (l :: (Link.cut level links).1, (Link.cut level links).2) :=
  if_neg h

theorem Link.group_cons (level : Nat) (tighter : List Nat) (first : Expr) (links : List Link) :
    Link.group (level :: tighter) first links =
      (Link.cut level links).2.foldl
        (fun left piece => piece.1.join left (Link.group tighter piece.1.operand piece.2))
        (Link.group tighter first (Link.cut level links).1) := by
  rw [Link.group]

/-- Where a link goes when a chain is cut: into the first run, to the head of a piece, or into the
run of a piece. -/
theorem Gapped.cut {l : η → Link} {F : η → List Link} {op : Operator} (h : Gapped l F)
    (hop : ∀ z, (l z).op = op) (level : Nat) :
    (∃ R pieces, Gapped l R ∧ ∀ z, Link.cut level (F z) = (R z, pieces)) ∨
      ∃ run P piece, Gapped piece P ∧ (∀ z, Link.cut level (F z) = (run, P z)) ∧
        ((∃ run', ∀ z, piece z = (l z, run')) ∨ ∃ l' R, Gapped l R ∧ ∀ z, piece z = (l', R z)) := by
  obtain ⟨front, back, hF⟩ := h
  obtain rfl : F = fun z => front ++ l z :: back := funext hF
  clear hF
  -- The links in front of the gap are cut one by one; each begins a piece or is added to the run
  -- behind it.
  induction front with
  | nil =>
    by_cases hlevel : op.level = level
    · refine .inr ⟨[], _, fun z => (l z, (Link.cut level back).1), .head _ (Link.cut level back).2,
        fun z => ?_, .inl ⟨_, fun _ => rfl⟩⟩
      exact Link.cut_cons_of_eq (by rw [hop, hlevel]) back
    · refine .inl ⟨_, (Link.cut level back).2, .head l (Link.cut level back).1, fun z => ?_⟩
      exact Link.cut_cons_of_ne (by rwa [hop]) back
  | cons l' front ih =>
    by_cases hlevel : l'.op.level = level
    · simp only [List.cons_append, Link.cut_cons_of_eq hlevel]
      rcases ih with ⟨R, pieces, hR, hcut⟩ | ⟨run, P, piece, hP, hcut, hpiece⟩
      · exact .inr ⟨[], _, fun z => (l', R z), .head _ pieces,
          fun z => by rw [hcut], .inr ⟨l', R, hR, fun _ => rfl⟩⟩
      · exact .inr ⟨[], _, piece, hP.cons (l', run), fun z => by rw [hcut], hpiece⟩
    · simp only [List.cons_append, Link.cut_cons_of_ne hlevel]
      rcases ih with ⟨R, pieces, hR, hcut⟩ | ⟨run, P, piece, hP, hcut, hpiece⟩
      · exact .inl ⟨_, pieces, hR.cons l', fun z => by rw [hcut]⟩
      · exact .inr ⟨l' :: run, P, piece, hP, fun z => by rw [hcut], hpiece⟩

theorem ExprHolds.group (h : ExprHolds H G) (levels : List Nat) (links : List Link) :
    ExprHolds H fun z => Link.group levels (G z) links := by
  induction levels generalizing G links with
  | nil => exact h.foldl id (·.operand) links
  | cons level tighter ih =>
    simp only [Link.group_cons]
    exact (ih h (Link.cut level links).1).pieces tighter _

/-- Grouping a chain by precedence keeps its operands, so the gap is in the group that has it. -/
theorem LinksHold.group {F : η → List Link} (h : LinksHold H F) (levels : List Nat) (first : Expr) :
    ExprHolds H fun z => Link.group levels first (F z) := by
  obtain ⟨pos, op, G, hG, hF⟩ := h
  induction levels generalizing first F with
  | nil =>
    obtain ⟨front, back, hF⟩ := hF
    simp only [Link.group, hF, List.foldl_append, List.foldl_cons]
    exact (hG.binary_right pos op _).foldl id (·.operand) back
  | cons level tighter ih =>
    simp only [Link.group_cons]
    rcases hF.cut (fun _ => rfl) level with ⟨R, pieces, hR, hcut⟩ | ⟨run, P, piece,
      ⟨front, back, hP⟩, hcut, hpiece⟩
    · simp only [hcut]
      exact (ih first hR).pieces tighter pieces
    · simp only [hcut, hP, List.foldl_append, List.foldl_cons]
      refine ExprHolds.pieces ?_ tighter back
      rcases hpiece with ⟨run', hpiece⟩ | ⟨l', R, hR, hpiece⟩
      -- The operand at the head of a piece is grouped first with the tighter links behind it.
      · simp only [hpiece]
        exact (hG.group tighter run').binary_right pos op _
      · simp only [hpiece]
        exact (ih l'.operand hR).binary_right l'.pos l'.op _

/-! ## Expressions with a gap -/

theorem carries_value : Carries Chain (ExprHolds H) Assignment (ExprHolds H) [] [] id where
  phrase _ _ h := by simpa using Assignment.value h
  holds _ h := h

theorem carries_target {value : Expr} (ht : t.kind = .assign) (h : Assignment ts' value) :
    Carries Chain (ExprHolds H) Assignment (ExprHolds H) [] (t :: ts')
      (Expr.assign t.pos · value) where
  phrase _ _ htarget := .assign htarget ht h
  holds _ h := h.frame (.left t.pos .assign (some value.outline))

theorem carries_assigned {target : Expr} (h : Chain ts target) (ht : t.kind = .assign) :
    Carries Assignment (ExprHolds H) Assignment (ExprHolds H) (ts ++ [t]) []
      (Expr.assign t.pos target) where
  phrase _ _ hvalue := by simpa using Assignment.assign h ht hvalue
  holds _ h := h.frame (.right t.pos .assign (some target.outline))

theorem carries_firstOperand (h : Links ts' links) :
    Carries Unary (ExprHolds H) Chain (ExprHolds H) [] ts'
      (Link.group Operator.levels · links) where
  phrase _ _ hfirst := by simpa using Chain.mk hfirst h
  holds _ hF := hF.group Operator.levels links

theorem carries_links {first : Expr} (h : Unary ts first) :
    Carries Links (LinksHold H) Chain (ExprHolds H) ts [] (Link.group Operator.levels first) where
  phrase _ _ hlinks := by simpa using Chain.mk h hlinks
  holds _ hF := hF.group Operator.levels first

theorem carries_operand
    (ht : t.kind.operator? = some op) (h : Links ts' links) :
    Carries Unary (ExprHolds H) Links (LinksHold H) [t] ts' (⟨t.pos, op, ·⟩ :: links) where
  phrase _ _ hoperand := by simpa using Links.cons ht hoperand h
  holds F hF := ⟨t.pos, op, F, hF, .head _ links⟩

theorem carries_laterLinks {operand : Expr}
    (ht : t.kind.operator? = some op) (h : Unary ts operand) :
    Carries Links (LinksHold H) Links (LinksHold H) (t :: ts) [] (⟨t.pos, op, operand⟩ :: ·) where
  phrase _ _ hlinks := by simpa using Links.cons ht h hlinks
  holds F hF := by
    obtain ⟨pos, op', G, hG, hF⟩ := hF
    exact ⟨pos, op', G, hG, hF.cons _⟩

theorem carries_plus (ht : t.kind = .plus) :
    Carries Unary (ExprHolds H) Unary (ExprHolds H) [t] [] id where
  phrase _ _ h := by simpa using Unary.plus ht h
  holds _ h := h

theorem carries_primary : Carries Primary (ExprHolds H) Unary (ExprHolds H) [] [] id where
  phrase _ _ h := by simpa using Unary.primary h
  holds _ h := h

theorem carries_paren (hp : p.kind = .leftParen) (hq : q.kind = .rightParen) :
    Carries Assignment (ExprHolds H) Primary (ExprHolds H) [p] [q] id where
  phrase _ _ h := .paren hp h hq
  holds _ h := h

theorem carries_lastArgument (hq : q.kind = .rightParen) :
    Carries Assignment (ExprHolds H) Arguments (ArgumentsHold H) [] [q] ([·]) where
  phrase _ _ h := .last h hq
  holds _ h := h.one

theorem carries_argument {es : List Expr} (hc : c.kind = .comma) (h : Arguments ts' es) :
    Carries Assignment (ExprHolds H) Arguments (ArgumentsHold H) [] (c :: ts') (· :: es) where
  phrase _ _ hfirst := .more hfirst hc h
  holds _ hF := hF.one.before (Expr.outlines es)

theorem carries_laterArguments {e : Expr} (h : Assignment ts e) (hc : c.kind = .comma) :
    Carries Arguments (ArgumentsHold H) Arguments (ArgumentsHold H) (ts ++ [c]) [] (e :: ·) where
  phrase _ _ hmore := by simpa using Arguments.more h hc hmore
  holds _ hF := hF.behind [e.outline]

/-- The list of arguments stands where its first token does. -/
theorem carries_call (ht : t.kind = .identifier) (hp : p.kind = .leftParen) (pos : Pos) :
    Carries (Pinned pos Arguments) (ArgumentsHold H) Primary (ExprHolds H) [t, p] []
      (Expr.call t.pos t.text pos) where
  phrase ts args h := by
    obtain ⟨hargs, hpos⟩ := h
    rcases ts with _ | ⟨a, ts⟩
    · cases hpos
    · obtain rfl : a.pos = pos := Option.some.inj hpos
      simpa using Primary.call ht hp hargs
  holds _ h := (h.seq pos .parameters).frame (.child t.pos (.call t.text))

end Holes

/-! ## Places of operands -/

/-- An operand that begins at the position. Whether it may begin with an integer depends on what
stands in front of it. -/
structure Operand (pos : Pos) (digits : Bool) (us : List Token) (e : Expr) : Prop where
  unary : Unary us e
  starts : headPos? us = some pos
  digits : digits = false → headKind us ≠ .integer

/-- Any operand may stand between the tokens. -/
def Slot {α : Type} (pos : Pos) (digits : Bool) (P : List Token → α → Prop) (C : (Expr → α) → Prop)
    (before after : List Token) : Prop :=
  ∃ F, Gap (Operand pos digits) P C before after F

/-- Any operand may stand between the tokens, but behind a minus sign not one that begins with an
integer. Then there may also be an operand in place of the minus sign and what follows it. -/
inductive Spot {α : Type} (pos : Pos) (P : List Token → α → Prop) (C : (Expr → α) → Prop) :
    List Token → List Token → Prop where
  | free {before after : List Token} (h : Slot pos true P C before after) :
    Spot pos P C before after
  | negated {before after : List Token} {m : Token} (hm : m.kind = .minus)
    (h : Slot pos false P C (before ++ [m]) after)
    (hbefore : Slot pos false P C before after) : Spot pos P C (before ++ [m]) after

/-- The token is an operand of its own, or an integer that is one together with the minus sign in
front of it. -/
inductive Found {α : Type} (pos : Pos) (P : List Token → α → Prop) (C : (Expr → α) → Prop) :
    List Token → Token → List Token → Prop where
  | string {before after : List Token} {u : Token} (hu : u.kind = .string)
    (h : Spot pos P C before after) :
    Found pos P C before u after
  | plain {before after : List Token} {u : Token} {value : Int32} (hu : u.kind = .integer)
    (hvalue : integerValue? false u.text = some value) (h : Slot pos true P C before after) :
      Found pos P C before u after
  | negative {before after : List Token} {m u : Token} {value : Int32} (hm : m.kind = .minus)
    (hu : u.kind = .integer)
    (hvalue : integerValue? true u.text = some value) (h : Spot pos P C before after) :
    Found pos P C (before ++ [m]) u after

section Places

variable {α β : Type} {pos : Pos} {digits : Bool} {P : List Token → α → Prop}
  {C : (Expr → α) → Prop} {Q : List Token → β → Prop} {C' : (Expr → β) → Prop}
  {before after front back : List Token} {u : Token}

theorem Operand.mono {us : List Token} {e : Expr} (h : Operand pos false us e) :
    Operand pos true us e :=
  ⟨h.unary, h.starts, nofun⟩

theorem Slot.mono (h : Slot pos true P C before after) : Slot pos false P C before after := by
  obtain ⟨F, hF⟩ := h
  exact ⟨F, hF.mono fun _ _ => Operand.mono⟩

theorem Spot.slot (h : Spot pos P C before after) : Slot pos false P C before after := by
  cases h with
  | free h => exact h.mono
  | negated _ h _ => exact h

/-- Whatever stands in a gap, the phrase begins at the same position. -/
theorem Gap.pin {F : Expr → α} (h : Gap (Operand pos digits) P C before after F) :
    ∃ start, Gap (Operand pos digits) (Pinned start P) C before after F := by
  cases before with
  | nil =>
    refine ⟨pos, fun us z hz => ⟨h.phrase us z hz, ?_⟩, h.holds⟩
    have hstarts := hz.starts
    rcases us with _ | ⟨u, us⟩
    · cases hstarts
    · exact hstarts
  | cons t before => exact ⟨t.pos, fun us z hz => ⟨h.phrase us z hz, rfl⟩, h.holds⟩

theorem Carries.pinned {g : α → β} (h : Carries P C Q C' front back g) (start : Pos) :
    Carries (Pinned start P) C Q C' front back g :=
  ⟨fun ts y hy => h.phrase ts y hy.1, h.holds⟩

theorem Slot.carry {g : Pos → α → β} (h : Slot pos digits P C before after)
    (hg : ∀ start, Carries (Pinned start P) C Q C' front back (g start)) :
    Slot pos digits Q C' (front ++ before) (after ++ back) := by
  obtain ⟨F, hF⟩ := h
  obtain ⟨start, hpinned⟩ := hF.pin
  exact ⟨_, hpinned.carry (hg start)⟩

theorem Spot.carry {g : Pos → α → β} (h : Spot pos P C before after)
    (hg : ∀ start, Carries (Pinned start P) C Q C' front back (g start)) :
    Spot pos Q C' (front ++ before) (after ++ back) := by
  cases h with
  | free h => exact .free (h.carry hg)
  | negated hm h hbefore =>
    have hslot := h.carry hg
    rw [← List.append_assoc] at hslot ⊢
    exact .negated hm hslot (hbefore.carry hg)

theorem Found.carry_pinned {g : Pos → α → β} (h : Found pos P C before u after)
    (hg : ∀ start, Carries (Pinned start P) C Q C' front back (g start)) :
    Found pos Q C' (front ++ before) u (after ++ back) := by
  cases h with
  | string hu h => exact .string hu (h.carry hg)
  | plain hu hvalue h => exact .plain hu hvalue (h.carry hg)
  | negative hm hu hvalue h =>
    rw [← List.append_assoc]
    exact .negative hm hu hvalue (h.carry hg)

theorem Found.carry {g : α → β} (h : Found pos P C before u after)
    (hg : Carries P C Q C' front back g) : Found pos Q C' (front ++ before) u (after ++ back) :=
  h.carry_pinned fun start => hg.pinned start

/-- Carried outwards where nothing is added behind. -/
theorem Found.carry_nil {g : α → β} (h : Found pos P C before u after)
    (hg : Carries P C Q C' front [] g) : Found pos Q C' (front ++ before) u after := by
  have hcarried := h.carry hg
  rwa [List.append_nil] at hcarried

end Places

/-! ## Signs -/

section Signs

variable {pos : Pos} {digits : Bool} {before after : List Token} {t : Token}

/-- The whole operand. -/
theorem slot_whole (pos : Pos) : Slot pos true Unary (ExprHolds Expr.outline) [] [] :=
  ⟨id, fun us z hz => by simpa using hz.unary, Holds.refl _⟩

/-- An operand behind a minus sign, if it does not begin with an integer. -/
theorem Slot.minus (ht : t.kind = .minus)
    (h : Slot pos digits Unary (ExprHolds Expr.outline) before after)
    (hhead : headKind before ≠ .integer) (hfree : before = [] → digits = false) :
    Slot pos digits Unary (ExprHolds Expr.outline) (t :: before) after := by
  obtain ⟨F, hphrase, hholds⟩ := h
  refine ⟨fun z => .neg t.pos (F z), fun us z hz => .minus ht ?_ (hphrase us z hz), ?_⟩
  · cases before with
    | nil =>
      have hinteger := hz.digits (hfree rfl)
      rcases us with _ | ⟨u, us⟩
      · cases hz.starts
      · exact hinteger
    | cons b before => exact hhead
  · exact hholds.frame (.right t.pos (.arithmetic (.known .sub)) (some (.leaf t.pos (.intConst 0))))

/-- Behind a minus sign a number would be read with it, so the operand must not begin with one. -/
theorem Spot.minus (ht : t.kind = .minus) (h : Spot pos Unary (ExprHolds Expr.outline) before after)
    (hhead : headKind before ≠ .integer) :
    Spot pos Unary (ExprHolds Expr.outline) (t :: before) after := by
  cases h with
  | free h =>
    -- Directly behind the sign an integer is no longer an operand of its own.
    rcases before with _ | ⟨b, before⟩
    · have hnegated : Spot pos Unary (ExprHolds Expr.outline) ([] ++ [t]) after :=
        .negated ht (h.mono.minus ht hhead fun _ => rfl) h.mono
      exact hnegated
    · exact .free (h.minus ht hhead nofun)
  | @negated before _ m hm h hbefore =>
    have hfront : headKind before ≠ .integer := by
      cases before with
      | nil => nofun
      | cons b before => exact hhead
    have hnegated : Spot pos Unary (ExprHolds Expr.outline) (t :: before ++ [m]) after :=
      .negated hm (h.minus ht hhead fun _ => rfl) (hbefore.minus ht hfront fun _ => rfl)
    exact hnegated

theorem Found.minus {u : Token} (ht : t.kind = .minus)
    (h : Found pos Unary (ExprHolds Expr.outline) before u after)
    (hhead : headKind (before ++ u :: after) ≠ .integer) :
    Found pos Unary (ExprHolds Expr.outline) (t :: before) u after := by
  have hfront (us rest : List Token) (h : headKind (us ++ rest) ≠ .integer) :
      headKind us ≠ .integer := by
    cases us with
    | nil => nofun
    | cons b us => exact h
  cases h with
  | string hu h => exact .string hu (h.minus ht (hfront _ _ hhead))
  | plain hu hvalue h =>
    refine .plain hu hvalue (h.minus ht (hfront _ _ hhead) ?_)
    -- Such an integer would be one literal with the sign.
    rintro rfl
    exact absurd hu hhead
  | @negative before _ m _ _ hm hu hvalue h =>
    rw [List.append_assoc] at hhead
    have hfound : Found pos Unary (ExprHolds Expr.outline) (t :: before ++ [m]) u after :=
      .negative hm hu hvalue (h.minus ht (hfront _ _ hhead))
    exact hfound

end Signs

/-! ## Literals

By induction on the phrase, down to the part that the literal is in. -/

/-- The kinds of token that are looked for. -/
def isLiteral (kind : TokenKind) : Bool := [.integer, .string].contains kind

theorem isLiteral_of_operator {kind : TokenKind} {op : Operator} (h : kind.operator? = some op) :
    isLiteral kind = false := by
  have hoperator : kind.operator?.isSome = true := by rw [h, Option.isSome_some]
  clear h
  revert hoperator
  cases kind <;> decide

namespace Phrase

mutual

theorem Assignment.find {ts before after : List Token} {e : Expr} {u : Token} (pos : Pos)
    (hu : isLiteral u.kind = true) :
    Assignment ts e → before ++ u :: after = ts →
      Found pos Assignment (ExprHolds Expr.outline) before u after
  | .value h, heq => (h.find pos hu heq).carry_nil carries_value
  | .assign htarget ht hvalue, heq => by
    rcases split_between heq hu (by rw [ht]; rfl) with ⟨mid, hts, rfl⟩ | ⟨mid, rfl, hts'⟩
    · exact (htarget.find pos hu hts.symm).carry (carries_target ht hvalue)
    · exact (hvalue.find pos hu hts'.symm).carry_nil (carries_assigned htarget ht)

theorem Chain.find {ts before after : List Token} {e : Expr} {u : Token} (pos : Pos)
    (hu : isLiteral u.kind = true) :
    Chain ts e → before ++ u :: after = ts → Found pos Chain (ExprHolds Expr.outline) before u after
  | .mk hfirst hlinks, heq => by
    rcases split_append heq with ⟨mid, hts, rfl⟩ | ⟨mid, rfl, hts'⟩
    · exact (hfirst.find pos hu hts.symm).carry (carries_firstOperand hlinks)
    · exact (hlinks.find pos hu hts'.symm).carry_nil (carries_links hfirst)

theorem Links.find {ts before after : List Token} {links : List Link} {u : Token} (pos : Pos)
    (hu : isLiteral u.kind = true) :
    Links ts links → before ++ u :: after = ts →
      Found pos Links (LinksHold Expr.outline) before u after
  | .nil, heq => by simp at heq
  | .cons (t := t) ht hoperand hlinks, heq => by
    obtain ⟨mid, rfl, hmid⟩ := split_cons heq hu (isLiteral_of_operator ht)
    rcases split_append hmid.symm with ⟨inner, hts, rfl⟩ | ⟨inner, rfl, hts'⟩
    · exact (hoperand.find pos hu hts.symm).carry (carries_operand ht hlinks)
    · exact (hlinks.find pos hu hts'.symm).carry_nil (carries_laterLinks ht hoperand)

theorem Unary.find {ts before after : List Token} {e : Expr} {u : Token} (pos : Pos)
    (hu : isLiteral u.kind = true) :
    Unary ts e → before ++ u :: after = ts → Found pos Unary (ExprHolds Expr.outline) before u after
  | .plus (t := t) ht h, heq => by
    obtain ⟨mid, rfl, hmid⟩ := split_cons heq hu (by rw [ht]; rfl)
    exact (h.find pos hu hmid.symm).carry_nil (carries_plus ht)
  | .negative (t := t) ht hn hvalue, heq => by
    obtain ⟨mid, rfl, hmid⟩ := split_cons heq hu (by rw [ht]; rfl)
    obtain ⟨rfl, rfl, rfl⟩ := eq_of_singleton hmid.symm
    exact Found.negative ht hn hvalue (.free (slot_whole pos))
  | .minus (t := t) ht hts h, heq => by
    obtain ⟨mid, rfl, hmid⟩ := split_cons heq hu (by rw [ht]; rfl)
    rw [hmid] at hts
    exact (h.find pos hu hmid.symm).minus ht hts
  | .primary h, heq => h.find pos hu heq

/-- The literal is the phrase itself, or it lies in the arguments of a call or between
parentheses. -/
theorem Primary.find {ts before after : List Token} {e : Expr} {u : Token} (pos : Pos)
    (hu : isLiteral u.kind = true) :
    Primary ts e → before ++ u :: after = ts →
      Found pos Unary (ExprHolds Expr.outline) before u after
  | .integer ht hvalue, heq => by
    obtain ⟨rfl, rfl, rfl⟩ := eq_of_singleton heq
    exact .plain ht hvalue (slot_whole pos)
  | .string ht, heq => by
    obtain ⟨rfl, rfl, rfl⟩ := eq_of_singleton heq
    exact .string ht (.free (slot_whole pos))
  | .character ht _, heq => (not_singleton heq hu (by rw [ht]; rfl)).elim
  | .name ht, heq => (not_singleton heq hu (by rw [ht]; rfl)).elim
  | .call (t := t) (p := p) ht hp hargs, heq => by
    obtain ⟨mid, rfl, hmid⟩ := split_behind [t, p] heq hu (by simp [ht, hp, isLiteral])
    have hfound := (hargs.find pos hu hmid.symm).carry_pinned (carries_call ht hp)
    rw [List.append_nil] at hfound
    exact hfound.carry_nil carries_primary
  | .paren (p := p) hp h hq, heq => by
    obtain ⟨mid, rfl, hmid⟩ := split_cons heq hu (by rw [hp]; rfl)
    obtain ⟨inner, hts, rfl⟩ := split_concat hmid.symm hu (by rw [hq]; rfl)
    exact ((h.find pos hu hts.symm).carry (carries_paren hp hq)).carry_nil carries_primary

theorem Arguments.find {ts before after : List Token} {args : List Expr} {u : Token} (pos : Pos)
    (hu : isLiteral u.kind = true) :
    Arguments ts args → before ++ u :: after = ts →
      Found pos Arguments (ArgumentsHold Expr.outline) before u after
  | .none hq, heq => (not_singleton heq hu (by rw [hq]; rfl)).elim
  | .last h hq, heq => by
    obtain ⟨mid, hts, rfl⟩ := split_concat heq hu (by rw [hq]; rfl)
    exact (h.find pos hu hts.symm).carry (carries_lastArgument hq)
  | .more h hc hmore, heq => by
    rcases split_between heq hu (by rw [hc]; rfl) with ⟨mid, hts, rfl⟩ | ⟨mid, rfl, hts'⟩
    · exact (h.find pos hu hts.symm).carry (carries_argument hc hmore)
    · exact (hmore.find pos hu hts'.symm).carry_nil (carries_laterArguments h hc)

end

end Phrase

end CSubset.Surface
