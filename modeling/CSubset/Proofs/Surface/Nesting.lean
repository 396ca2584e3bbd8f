import CSubset.Proofs.Surface.Phrases

/-!
# Parentheses

`outside? 0 ts` are the tokens of `ts` that stand outside of all parentheses, provided that the
parentheses match. They match in every expression, and no comma stands outside of them
(`Phrase.Assignment.compact`). So an expression ends in front of the first comma or semicolon that
is outside of its parentheses (`eq_of_append_eq`).
-/

namespace CSubset.Surface

/-- How many parentheses are open behind a token, if `depth` are open in front of it. -/
def depthAfter? (depth : Nat) (t : Token) : Option Nat :=
  if t.kind = .leftParen then some (depth + 1)
  else if t.kind = .rightParen then if depth = 0 then none else some (depth - 1)
  else some depth

/-- The token, if it is no parenthesis and stands outside of all. -/
def kept (depth : Nat) (t : Token) : List Token :=
  if depth = 0 ∧ t.kind ≠ .leftParen ∧ t.kind ≠ .rightParen then [t] else []

/-- The tokens outside of all parentheses, if `depth` parentheses are open in front of the list and
none behind it. -/
def outside? : Nat → List Token → Option (List Token)
  | depth, [] => if depth = 0 then some [] else none
  | depth, t :: ts => (depthAfter? depth t).bind fun d => (outside? d ts).map (kept depth t ++ ·)

section Outside

variable {t : Token} {ts us os : List Token} {k : Nat}

theorem outside?_nil : outside? k [] = some os ↔ k = 0 ∧ os = [] := by
  rw [outside?]
  split <;> simp_all [eq_comm]

theorem outside?_cons : outside? k (t :: ts) = some os ↔
    ∃ d os', depthAfter? k t = some d ∧ outside? d ts = some os' ∧ os = kept k t ++ os' := by
  simp only [outside?, Option.bind_eq_some_iff, Option.map_eq_some_iff]
  constructor
  · rintro ⟨d, hd, os', hos', rfl⟩
    exact ⟨d, os', hd, hos', rfl⟩
  · rintro ⟨d, os', hd, hos', rfl⟩
    exact ⟨d, hd, os', hos', rfl⟩

theorem depthAfter?_add {d : Nat} (h : depthAfter? k t = some d) (n : Nat) :
    depthAfter? (k + n) t = some (d + n) := by
  unfold depthAfter? at h ⊢
  split at h
  · cases h
    simp [Nat.add_right_comm, *]
  · split at h
    · split at h
      · cases h
      · cases h
        simp [*]
        omega
    · cases h
      simp [*]

theorem kept_succ : kept (k + 1) t = [] := by simp [kept]

/-- Where the parentheses of a list match, what is behind the list is read as if the list were not
there. -/
theorem outside?_append (h : outside? k ts = some os) (us : List Token) :
    outside? k (ts ++ us) = (outside? 0 us).map (os ++ ·) := by
  induction ts generalizing k os with
  | nil =>
    obtain ⟨rfl, rfl⟩ := outside?_nil.mp h
    simp
  | cons t ts ih =>
    obtain ⟨d, os', hd, hos', rfl⟩ := outside?_cons.mp h
    rw [List.cons_append, outside?, hd, Option.bind_some, ih hos', Option.map_map]
    simp [Function.comp_def]

/-- Inside of other parentheses, nothing of the list is outside of all. -/
theorem outside?_append_inner (h : outside? k ts = some os) (n : Nat) (us : List Token) :
    outside? (k + (n + 1)) (ts ++ us) = outside? (n + 1) us := by
  induction ts generalizing k os with
  | nil =>
    obtain ⟨rfl, rfl⟩ := outside?_nil.mp h
    rw [Nat.zero_add, List.nil_append]
  | cons t ts ih =>
    obtain ⟨d, os', hd, hos', rfl⟩ := outside?_cons.mp h
    rw [List.cons_append, outside?, depthAfter?_add hd, Option.bind_some, ih hos',
      ← Nat.add_assoc, kept_succ]
    simp

theorem mem_of_mem_outside (h : outside? k ts = some os) (ht : t ∈ os) : t ∈ ts := by
  induction ts generalizing k os with
  | nil =>
    obtain ⟨-, rfl⟩ := outside?_nil.mp h
    exact ht
  | cons u ts ih =>
    obtain ⟨d, os', -, hos', rfl⟩ := outside?_cons.mp h
    rcases List.mem_append.mp ht with ht | ht
    · rw [kept] at ht
      split at ht
      · rw [List.mem_singleton.mp ht]
        exact List.mem_cons_self
      · cases ht
    · exact List.mem_cons_of_mem _ (ih hos' ht)

/-- All parentheses are closed at the end, so the last token is outside of them. -/
theorem last_mem_outside (hopen : t.kind ≠ .leftParen) (hclose : t.kind ≠ .rightParen)
    (h : outside? k (ts ++ [t]) = some os) : t ∈ os := by
  induction ts generalizing k os with
  | nil =>
    obtain ⟨d, os', hd, hos', rfl⟩ := outside?_cons.mp h
    obtain ⟨rfl, rfl⟩ := outside?_nil.mp hos'
    simp_all [depthAfter?, kept]
  | cons u ts ih =>
    obtain ⟨d, os', -, hos', rfl⟩ := outside?_cons.mp h
    exact List.mem_append_right _ (ih hos')

/-- Two lists with matching parentheses that end in front of the first separator outside of them are
the same. -/
theorem eq_of_append_eq {stop : Token → Prop}
    (hstop : ∀ t, stop t → t.kind ≠ .leftParen ∧ t.kind ≠ .rightParen)
    {us vs us' vs' os os' : List Token} {c c' : Token} (hus : outside? k us = some os)
    (hos : ∀ t ∈ os, ¬ stop t) (hvs : outside? k vs = some os') (hos' : ∀ t ∈ os', ¬ stop t)
    (hc : stop c) (hc' : stop c') (heq : us ++ c :: us' = vs ++ c' :: vs') : us = vs := by
  have hkept (t : Token) (ht : stop t) : kept 0 t = [t] := by simp [kept, hstop t ht]
  induction us generalizing k vs os os' with
  | nil =>
    obtain ⟨rfl, rfl⟩ := outside?_nil.mp hus
    cases vs with
    | nil => rfl
    | cons t vs =>
      obtain ⟨rfl, -⟩ := List.cons.inj heq
      obtain ⟨_, _, -, -, rfl⟩ := outside?_cons.mp hvs
      exact absurd hc (hos' _ (by simp [hkept _ hc]))
  | cons t us ih =>
    cases vs with
    | nil =>
      obtain ⟨rfl, rfl⟩ := outside?_nil.mp hvs
      obtain ⟨rfl, -⟩ := List.cons.inj heq
      obtain ⟨_, _, -, -, rfl⟩ := outside?_cons.mp hus
      exact absurd hc' (hos _ (by simp [hkept _ hc']))
    | cons t' vs =>
      obtain ⟨rfl, htail⟩ := List.cons.inj heq
      obtain ⟨d, _, hd, hrest, rfl⟩ := outside?_cons.mp hus
      obtain ⟨d', _, hd', hrest', rfl⟩ := outside?_cons.mp hvs
      obtain rfl := Option.mem_unique hd hd'
      rw [ih hrest (fun t ht => hos t (List.mem_append_right _ ht)) hrest'
        (fun t ht => hos' t (List.mem_append_right _ ht)) htail]

end Outside

/-! ## Expressions -/

namespace Phrase

/-- The kinds of token that an expression is made of, but for parentheses and commas. -/
def inOperand (kind : TokenKind) : Bool :=
  kind.operator?.isSome || [.identifier, .integer, .character, .string, .assign].contains kind

/-- The kinds of token that an expression is made of. -/
def inExpression (kind : TokenKind) : Bool :=
  inOperand kind || [.leftParen, .rightParen, .comma].contains kind

theorem inOperand_ne {kind : TokenKind} (h : inOperand kind = true) :
    kind ≠ .leftParen ∧ kind ≠ .rightParen ∧ kind ≠ .comma := by
  refine ⟨?_, ?_, ?_⟩ <;> rintro rfl <;> cases h

theorem startsType_of_inExpression {kind : TokenKind} (h : inExpression kind = true) :
    kind.startsType = false := by
  cases kind <;> first | rfl | cases h

/-- The tokens may be those of an expression: their parentheses match, and no comma stands outside
of them. -/
structure Compact (ts : List Token) : Prop where
  kinds : ∀ t ∈ ts, inExpression t.kind = true
  nested : ∃ os, outside? 0 ts = some os ∧ ∀ t ∈ os, t.kind ≠ .comma

/-- The tokens may be those behind an opening parenthesis, up to the one that closes it. -/
structure Closing (ts : List Token) : Prop where
  kinds : ∀ t ∈ ts, inExpression t.kind = true
  nested : outside? 1 ts = some []

section Compact

variable {t : Token} {ts us : List Token}

theorem Compact.nil : Compact [] := ⟨nofun, [], rfl, nofun⟩

theorem Compact.append (hts : Compact ts) (hus : Compact us) : Compact (ts ++ us) := by
  obtain ⟨os, hos, hcommas⟩ := hts.nested
  obtain ⟨os', hos', hcommas'⟩ := hus.nested
  refine ⟨List.forall_mem_append.mpr ⟨hts.kinds, hus.kinds⟩, os ++ os', ?_,
    List.forall_mem_append.mpr ⟨hcommas, hcommas'⟩⟩
  rw [outside?_append hos, hos']
  rfl

theorem Compact.cons (ht : inOperand t.kind = true) (hts : Compact ts) : Compact (t :: ts) := by
  obtain ⟨hopen, hclose, hcomma⟩ := inOperand_ne ht
  obtain ⟨os, hos, hcommas⟩ := hts.nested
  refine ⟨List.forall_mem_cons.mpr ⟨by simp [inExpression, ht], hts.kinds⟩, t :: os, ?_,
    List.forall_mem_cons.mpr ⟨hcomma, hcommas⟩⟩
  exact outside?_cons.mpr
    ⟨0, os, by simp [depthAfter?, hopen, hclose], hos, by simp [kept, hopen, hclose]⟩

theorem Compact.group (ht : t.kind = .leftParen) (hts : Closing ts) : Compact (t :: ts) := by
  refine ⟨List.forall_mem_cons.mpr ⟨by simp [inExpression, ht], hts.kinds⟩, [], ?_, nofun⟩
  exact outside?_cons.mpr ⟨1, [], by simp [depthAfter?, ht], hts.nested, by simp [kept, ht]⟩

theorem Closing.close (ht : t.kind = .rightParen) : Closing [t] where
  kinds := by simp [inExpression, ht]
  nested := outside?_cons.mpr ⟨0, [], by simp [depthAfter?, ht], rfl, by simp [kept]⟩

theorem Closing.comma (ht : t.kind = .comma) (hts : Closing ts) : Closing (t :: ts) where
  kinds := List.forall_mem_cons.mpr ⟨by simp [inExpression, ht], hts.kinds⟩
  nested := outside?_cons.mpr ⟨1, [], by simp [depthAfter?, ht], hts.nested, by simp [kept]⟩

theorem Compact.append_closing (hts : Compact ts) (hus : Closing us) : Closing (ts ++ us) where
  kinds := List.forall_mem_append.mpr ⟨hts.kinds, hus.kinds⟩
  nested := by
    obtain ⟨os, hos, -⟩ := hts.nested
    exact (outside?_append_inner hos 0 us).trans hus.nested

/-- What is written like an expression does not end in a comma. -/
theorem Compact.last_ne (h : Compact (ts ++ [t])) : t.kind ≠ .comma := by
  intro ht
  obtain ⟨os, hos, hcommas⟩ := h.nested
  exact hcommas t (last_mem_outside (by simp [ht]) (by simp [ht]) hos) ht

end Compact

mutual

theorem Assignment.compact {ts : List Token} {e : Expr} : Assignment ts e → Compact ts
  | .value h => h.compact
  | .assign htarget ht hvalue => htarget.compact.append (hvalue.compact.cons (by rw [ht]; rfl))

theorem Chain.compact {ts : List Token} {e : Expr} : Chain ts e → Compact ts
  | .mk hfirst hlinks => hfirst.compact.append hlinks.compact

theorem Links.compact {ts : List Token} {links : List Link} : Links ts links → Compact ts
  | .nil => .nil
  | .cons ht hoperand hlinks =>
    (hoperand.compact.append hlinks.compact).cons (by simp [inOperand, ht])

theorem Unary.compact {ts : List Token} {e : Expr} : Unary ts e → Compact ts
  | .plus ht h => h.compact.cons (by rw [ht]; rfl)
  | .negative ht hn _ => (Compact.nil.cons (by rw [hn]; rfl)).cons (by rw [ht]; rfl)
  | .minus ht _ h => h.compact.cons (by rw [ht]; rfl)
  | .primary h => h.compact

theorem Primary.compact {ts : List Token} {e : Expr} : Primary ts e → Compact ts
  | .integer ht _ => Compact.nil.cons (by rw [ht]; rfl)
  | .character ht _ => Compact.nil.cons (by rw [ht]; rfl)
  | .string ht => Compact.nil.cons (by rw [ht]; rfl)
  | .name ht => Compact.nil.cons (by rw [ht]; rfl)
  | .call ht hp hargs => (Compact.group hp hargs.closing).cons (by rw [ht]; rfl)
  | .paren hp h hq => .group hp (h.compact.append_closing (.close hq))

theorem Arguments.closing {ts : List Token} {args : List Expr} : Arguments ts args → Closing ts
  | .none hq => .close hq
  | .last h hq => h.compact.append_closing (.close hq)
  | .more h hc hmore => h.compact.append_closing (hmore.closing.comma hc)

end

end Phrase

end CSubset.Surface
