import CSubset.Proofs.Token.Words

/-!
# Numbered names

A local name is a base, or a base with a dot and a number behind it. If no base ends in a dot and a
number itself (`IsBase`), a name tells its base and its number (`numbered_inj`). Words are bases,
and so are the names with another word behind the last dot.
-/

namespace CSubset.Lowering

variable {k k' : Nat} {base base' : String}

/-- Name number `k` for `base`; the first one has no number in it. -/
def numbered (base : String) (k : Nat) : String := if k = 0 then base else s!"{base}.{k}"

/-- Behind no dot of the name stands a number. -/
def IsBase (base : String) : Prop :=
  ∀ stem tail : List Char, base.toList = stem ++ '.' :: tail → ∃ c ∈ tail, c.isDigit = false

theorem IsBase.of_dot_not_mem {name : String} (h : '.' ∉ name.toList) : IsBase name := by
  intro stem tail hname
  exact absurd (by simp [hname]) h

/-- Where the last dot of a text stands is settled by the text. -/
theorem append_dot_inj {stem stem' tail tail' : List Char} (htail : '.' ∉ tail)
    (htail' : '.' ∉ tail') (h : stem ++ '.' :: tail = stem' ++ '.' :: tail') :
    stem = stem' ∧ tail = tail' := by
  rcases List.append_eq_append_iff.mp h with ⟨mid, rfl, hmid⟩ | ⟨mid, rfl, hmid⟩
  · cases mid with
    | nil => exact ⟨(List.append_nil stem).symm, (List.cons.inj hmid).2⟩
    | cons c mid =>
      have hmem : '.' ∈ tail := by simp [(List.cons.inj hmid).2]
      exact absurd hmem htail
  · cases mid with
    | nil => exact ⟨List.append_nil stem', (List.cons.inj hmid).2.symm⟩
    | cons c mid =>
      have hmem : '.' ∈ tail' := by simp [(List.cons.inj hmid).2]
      exact absurd hmem htail'

/-- A name with something else than a number behind its last dot. -/
theorem IsBase.of_suffix (stem : String) {suffix : String} (hdot : '.' ∉ suffix.toList)
    (hdigit : ∃ c ∈ suffix.toList, c.isDigit = false) : IsBase (stem ++ "." ++ suffix) := by
  intro stem' tail h
  by_cases htail : '.' ∈ tail
  · -- it was not the last dot, and a dot is no digit
    exact ⟨'.', htail, rfl⟩
  · have hsplit : stem.toList ++ '.' :: suffix.toList = stem' ++ '.' :: tail := by simpa using h
    rw [← (append_dot_inj hdot htail hsplit).2]
    exact hdigit

theorem toList_numbered (base : String) (hk : k ≠ 0) :
    (numbered base k).toList = base.toList ++ '.' :: Nat.toDigits 10 k := by
  have htext : numbered base k = base ++ "." ++ Nat.repr k := if_neg hk
  rw [htext]
  simp

theorem isDigit_of_mem_digits {c : Char} (hc : c ∈ Nat.toDigits 10 k) : c.isDigit = true :=
  Nat.isDigit_of_mem_toDigits (by decide) (by decide) hc

theorem dot_not_mem_digits (k : Nat) : '.' ∉ Nat.toDigits 10 k :=
  fun h => absurd (isDigit_of_mem_digits h) (by decide)

theorem digits_inj (h : Nat.toDigits 10 k = Nat.toDigits 10 k') : k = k' := by
  rw [← Nat.ofDigitChars_toDigits (by decide : 1 < 10) (by decide) (n := k), h,
    Nat.ofDigitChars_toDigits (by decide) (by decide)]

/-- No base is a numbered name. -/
theorem numbered_ne_base (hbase : IsBase base) (hk : k ≠ 0) : numbered base' k ≠ base := by
  rintro rfl
  obtain ⟨c, hc, hdigit⟩ := hbase _ _ (toList_numbered base' hk)
  rw [isDigit_of_mem_digits hc] at hdigit
  cases hdigit

/-- A name tells its base and its number. -/
theorem numbered_inj (hbase : IsBase base) (hbase' : IsBase base')
    (h : numbered base k = numbered base' k') : base = base' ∧ k = k' := by
  by_cases hk : k = 0
  · by_cases hk' : k' = 0
    · subst hk hk'
      exact ⟨h, rfl⟩
    · subst hk
      exact absurd h.symm (numbered_ne_base hbase hk')
  · by_cases hk' : k' = 0
    · subst hk'
      exact absurd h (numbered_ne_base hbase' hk)
    · -- both names end in a number, and the last dot stands in front of it
      have hlists := congrArg String.toList h
      rw [toList_numbered base hk, toList_numbered base' hk'] at hlists
      obtain ⟨hstem, hnumber⟩ :=
        append_dot_inj (dot_not_mem_digits k) (dot_not_mem_digits k') hlists
      exact ⟨String.toList_inj.mp hstem, digits_inj hnumber⟩

end CSubset.Lowering
