import CSubset.Proofs.Surface.Phrases
import Mathlib.Data.List.Basic

/-!
# Kinds of token in phrases

A token is found in a list that is put together from others by its kind: it is not in a part that
has no such tokens (`split_behind`). The types, names and parameters of declarations have few kinds
of token (`inHead`).
-/

namespace CSubset.Surface

/-! ## Finding a token -/

section Split

variable {t : Token} {us vs before rest : List Token} {q : TokenKind → Bool} {c : Token}

/-- One of two lists has the token. -/
theorem split_append (h : before ++ t :: rest = us ++ vs) :
    (∃ mid, us = before ++ t :: mid ∧ rest = mid ++ vs) ∨ ∃ mid, before = us ++ mid ∧
      vs = mid ++ t :: rest := by
  rcases List.append_eq_append_iff.mp h with ⟨mid, rfl, hmid⟩ | ⟨mid, rfl, hmid⟩
  · rcases List.cons_eq_append_iff.mp hmid with ⟨rfl, rfl⟩ | ⟨mid, rfl, rfl⟩
    · exact .inr ⟨[], by simp, rfl⟩
    · exact .inl ⟨mid, rfl, rfl⟩
  · exact .inr ⟨mid, rfl, hmid⟩

/-- A token of a kind that is not in the list is not in the list. -/
theorem not_among (h : before ++ t :: rest = us) (ht : q t.kind = true)
    (hus : ∀ u ∈ us, q u.kind = false) : False := by
  have hkind := hus t (by simp [← h])
  rw [ht] at hkind
  cases hkind

/-- A token of a kind that is not in the first list is in the second. -/
theorem split_behind (us : List Token) (h : before ++ t :: rest = us ++ vs) (ht : q t.kind = true)
    (hus : ∀ u ∈ us, q u.kind = false) : ∃ mid, before = us ++ mid ∧ vs = mid ++ t :: rest := by
  rcases split_append h with ⟨mid, hmid, -⟩ | hsplit
  · exact (not_among hmid.symm ht hus).elim
  · exact hsplit

theorem split_cons (h : before ++ t :: rest = c :: vs) (ht : q t.kind = true)
    (hc : q c.kind = false) : ∃ mid, before = c :: mid ∧ vs = mid ++ t :: rest :=
  split_behind [c] h ht (List.forall_mem_singleton.mpr hc)

/-- The token is in front of another one or behind it. -/
theorem split_between (h : before ++ t :: rest = us ++ c :: vs) (ht : q t.kind = true)
    (hc : q c.kind = false) :
    (∃ mid, us = before ++ t :: mid ∧ rest = mid ++ c :: vs) ∨ ∃ mid, before = us ++ [c] ++ mid ∧
      vs = mid ++ t :: rest := by
  rcases split_append h with hfront | ⟨mid, rfl, hmid⟩
  · exact .inl hfront
  · obtain ⟨mid, rfl, hvs⟩ := split_cons hmid.symm ht hc
    exact .inr ⟨mid, List.append_cons .., hvs⟩

/-- The token is in front of the last one. -/
theorem split_concat (h : before ++ t :: rest = us ++ [c]) (ht : q t.kind = true)
    (hc : q c.kind = false) : ∃ mid, us = before ++ t :: mid ∧ rest = mid ++ [c] := by
  rcases split_between h ht hc with hfront | ⟨mid, -, hnil⟩
  · exact hfront
  · simp at hnil

theorem not_singleton (h : before ++ t :: rest = [c]) (ht : q t.kind = true)
    (hc : q c.kind = false) : False :=
  not_among h ht (List.forall_mem_singleton.mpr hc)

theorem eq_of_singleton (h : before ++ t :: rest = [c]) : before = [] ∧ t = c ∧ rest = [] := by
  rcases List.append_eq_singleton_iff.mp h with ⟨rfl, hcons⟩ | ⟨-, hnil⟩
  · exact ⟨rfl, List.cons.inj hcons⟩
  · cases hnil

end Split

/-! ## Heads of declarations -/

/-- The kinds of token in types, names and parameters. -/
def inHead (kind : TokenKind) : Bool :=
  kind.startsType || [.star, .identifier, .comma, .rightParen].contains kind

namespace Phrase

variable {ts ns : List Token} {d : Declarator} {type : TypeSpec} {params : List Param}

theorem TypeName.kinds (h : TypeName ts type) : ∀ t ∈ ts, t.kind.startsType = true := by
  have hqualifier {ts : List Token} {b : Bool} (h : Qualifier ts b) : ∀ t ∈ ts,
      t.kind.startsType = true := by
    cases h with
    | absent => nofun
    | const ht => simp [TokenKind.startsType, ht]
  cases h with
  | mk hbefore ht hafter =>
    refine List.forall_mem_append.mpr
      ⟨hqualifier hbefore, List.forall_mem_cons.mpr ⟨?_, hqualifier hafter⟩⟩
    simp [TokenKind.startsType, ht]

theorem Declared.kinds (h : Declared ns d) : ∀ t ∈ ns, t.kind = .star ∨ t.kind = .identifier := by
  cases h with
  | mk hstars ht =>
    exact List.forall_mem_append.mpr
      ⟨fun s hs => .inl (hstars s hs), List.forall_mem_singleton.mpr (.inr ht)⟩

theorem TypeName.headKinds (h : TypeName ts type) : ∀ t ∈ ts, inHead t.kind = true :=
  fun t ht => by simp [inHead, h.kinds t ht]

theorem Declared.headKinds (h : Declared ns d) : ∀ t ∈ ns, inHead t.kind = true := by
  intro t ht
  rcases h.kinds t ht with hkind | hkind <;> rw [hkind] <;> rfl

theorem ParameterList.headKinds {ps : List Param} (h : ParameterList ts ps) :
    ∀ t ∈ ts, inHead t.kind = true := by
  have hparameter {ts : List Token} {p : Param} (h : Parameter ts p) : ∀ t ∈ ts,
      inHead t.kind = true := by
    cases h with
    | mk htype hname => exact List.forall_mem_append.mpr ⟨htype.headKinds, hname.headKinds⟩
  induction h with
  | last h => exact hparameter h
  | more h hc _ ih =>
    exact List.forall_mem_append.mpr ⟨hparameter h, List.forall_mem_cons.mpr ⟨by rw [hc]; rfl, ih⟩⟩

theorem Parameters.headKinds (h : Parameters ts params) : ∀ t ∈ ts, inHead t.kind = true := by
  cases h with
  | none hq => exact List.forall_mem_singleton.mpr (by rw [hq]; rfl)
  | void hv hq =>
    exact List.forall_mem_cons.mpr
      ⟨by rw [hv]; rfl, List.forall_mem_singleton.mpr (by rw [hq]; rfl)⟩
  | some h _ hq =>
    exact List.forall_mem_append.mpr ⟨h.headKinds, List.forall_mem_singleton.mpr (by rw [hq]; rfl)⟩

/-- A kind of token that is not in types, names and parameters, and is not a parenthesis, is not in
front of the body of a function. -/
theorem function_kinds {q : TokenKind → Bool} {ps : List Token} {p : Token}
    (hq : ∀ kind, inHead kind = true → q kind = false) (hopen : q .leftParen = false)
    (htype : TypeName ts type) (hname : Declared ns d) (hp : p.kind = .leftParen)
    (hparams : Parameters ps params) : ∀ t ∈ ts ++ (ns ++ p :: ps), q t.kind = false := by
  refine List.forall_mem_append.mpr ⟨fun t ht => hq _ (htype.headKinds t ht), ?_⟩
  refine List.forall_mem_append.mpr ⟨fun t ht => hq _ (hname.headKinds t ht), ?_⟩
  exact List.forall_mem_cons.mpr ⟨by rw [hp, hopen], fun t ht => hq _ (hparams.headKinds t ht)⟩

end Phrase

end CSubset.Surface
