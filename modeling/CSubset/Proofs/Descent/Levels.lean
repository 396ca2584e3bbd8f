import CSubset.Proofs.Printing.Expressions

/-!
# Operands by level

The links of a chain can be read level by level: at one level, what stands between two operators of
that level is read at the next tighter one. The links are the same, and so is the token where they
end (`chainOver_eq`, `chain_eq`).
-/

namespace CSubset.Surface.Parser

open Printing (level_lt)

variable {input : List Token} {level : Nat} {op : Operator} {t : Token}

/-- The links up to the first operator that binds less tightly than `level`. -/
def linksOver (level : Nat) (input : List Token) : ParsedTail (List Link) input :=
  match input with
  | [] => .ok ⟨[], [], by simp⟩
  | t :: rest =>
    match t.kind.operator? with
    | none => .ok ⟨[], t :: rest, by simp⟩
    | some op =>
      if level ≤ op.level then do
        let ⟨operand, r, _⟩ ← unary rest
        let ⟨links, r, _⟩ ← linksOver level r
        return ⟨⟨t.pos, op, operand⟩ :: links, r, by simp; omega⟩
      else .ok ⟨[], t :: rest, by simp⟩
termination_by input.length

/-- The first token is an operator of the level. -/
def Heads (level : Nat) (input : List Token) : Prop :=
  (headKind input).operator?.map Operator.level = some level

instance (level : Nat) (input : List Token) : Decidable (Heads level input) :=
  inferInstanceAs (Decidable (_ = _))

/-- The links from an operator of the level on, if there is one. -/
def linksAt (level : Nat) (input : List Token) : ParsedTail (List Link) input :=
  if Heads level input then linksOver level input else .ok ⟨[], input, Nat.le_refl _⟩

/-- An operand and the links after it. -/
def chainOver (level : Nat) (input : List Token) : Parsed (Expr × List Link) input := do
  let first ← unary input
  let links ← linksOver level first.rest
  return ⟨(first.value, links.value), links.rest, links.noLonger.trans_lt first.shorter⟩

theorem linksOver_of_tighter (ht : t.kind.operator? = some op)
    (hop : level ≤ op.level) (rest : List Token) :
    linksOver level (t :: rest) = chainOver level rest >>= fun c =>
      .ok ⟨⟨t.pos, op, c.value.1⟩ :: c.value.2, c.rest, Nat.le_succ_of_le c.shorter.le⟩ := by
  rw [linksOver]
  simp only [ht, if_pos hop, chainOver, bind_assoc]
  rfl

theorem linksOver_of_looser (h : ∀ op, (headKind input).operator? = some op → op.level < level) :
    linksOver level input = .ok ⟨[], input, Nat.le_refl _⟩ := by
  cases input with
  | nil => rw [linksOver]
  | cons t rest =>
    rw [linksOver]
    split
    next => rfl
    next op hop => rw [if_neg (Nat.not_le.mpr (h op hop))]

/-- The links over a level are those over the next one, and those from an operator of the level
on. -/
theorem linksOver_eq (level : Nat) (input : List Token) :
    linksOver level input = linksOver (level + 1) input >>= fun run =>
      linksAt level run.rest >>= fun more =>
        .ok ⟨run.value ++ more.value, more.rest, more.noLonger.trans run.noLonger⟩ := by
  by_cases htighter : ∃ op, (headKind input).operator? = some op ∧ level < op.level
  · -- both sides read the operand of an operator that binds more tightly
    obtain ⟨op, hop, hlt⟩ := htighter
    cases input with
    | nil => simp [headKind, TokenKind.operator?] at hop
    | cons t rest =>
      rw [linksOver_of_tighter hop hlt.le, linksOver_of_tighter hop hlt]
      simp only [chainOver, bind_assoc]
      refine bind_congr fun first => ?_
      have hshorter := first.shorter
      rw [linksOver_eq level first.rest]
      simp only [bind_assoc]
      rfl
  · have hlooser : ∀ op, (headKind input).operator? = some op → op.level ≤ level := fun op hop =>
      Nat.le_of_not_lt fun hlt => htighter ⟨op, hop, hlt⟩
    rw [linksOver_of_looser fun op hop => Nat.lt_succ_of_le (hlooser op hop)]
    show _ = linksAt level input >>= _
    rw [linksAt]
    split
    next => exact (bind_pure _).symm
    next hheads =>
      refine linksOver_of_looser fun op hop => lt_of_le_of_ne (hlooser op hop) fun heq => hheads ?_
      rw [Heads, hop, ← heq]
      rfl
termination_by input.length
decreasing_by
  simp only [List.length_cons]
  omega

theorem chainOver_eq (level : Nat) (input : List Token) :
    chainOver level input = chainOver (level + 1) input >>= fun c =>
      linksAt level c.rest >>= fun more =>
        .ok ⟨(c.value.1, c.value.2 ++ more.value), more.rest, more.noLonger.trans_lt
          c.shorter⟩ := by
  simp only [chainOver, linksOver_eq level, bind_assoc]
  rfl

/-- No operator binds more tightly than those of the last level. -/
theorem chainOver_ten (input : List Token) :
    chainOver 10 input = unary input >>= fun e => .ok ⟨(e.value, []), e.rest, e.shorter⟩ := by
  refine bind_congr fun first => ?_
  rw [linksOver_of_looser fun op _ => level_lt op]
  rfl

theorem linksAt_of_head (ht : t.kind.operator? = some op)
    (hop : op.level = level) (rest : List Token) :
    linksAt level (t :: rest) = chainOver (level + 1) rest >>= fun c =>
      linksAt level c.rest >>= fun more =>
        .ok ⟨⟨t.pos, op, c.value.1⟩ :: (c.value.2 ++ more.value), more.rest,
          Nat.le_succ_of_le (more.noLonger.trans c.shorter.le)⟩ := by
  have hheads : Heads level (t :: rest) := by simp [Heads, headKind, ht, hop]
  rw [linksAt, if_pos hheads, linksOver_of_tighter ht hop.ge, chainOver_eq]
  simp only [bind_assoc]
  rfl

theorem linksOver_zero (input : List Token) : linksOver 0 input = linksFrom input := by
  rw [linksFrom.eq_def]
  cases input with
  | nil => rw [linksOver]
  | cons t rest =>
    dsimp only
    split
    next hop => exact linksOver_of_looser (by simp [headKind, hop])
    next op hop =>
      rw [linksOver_of_tighter hop op.level.zero_le, chainOver, bind_assoc]
      refine bind_congr fun first => ?_
      have hshorter := first.shorter
      rw [bind_assoc, linksOver_zero first.rest]
      rfl
termination_by input.length
decreasing_by
  simp only [List.length_cons]
  omega

/-- A whole chain. -/
theorem chain_eq (input : List Token) :
    chain input =
    chainOver 0 input >>= fun c => .ok ⟨Link.group Operator.levels c.value.1 c.value.2, c.rest,
      c.shorter⟩ := by
  rw [chainOver, chain, bind_assoc]
  refine bind_congr fun first => ?_
  rw [bind_assoc, linksOver_zero]
  rfl

end CSubset.Surface.Parser
