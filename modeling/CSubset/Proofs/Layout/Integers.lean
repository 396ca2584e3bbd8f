import CSubset.Proofs.Layout.Spelled
import CSubset.Proofs.Surface.Literals

/-!
# Values of integer literals

An integer in a text has the value of its digits, and with a minus sign in front of it the negative
value, whatever their number is. A text with a value that does not fit into 32 bits is refused, and
so is one with a digit that is not an ASCII digit (`integer_literals_exact`).

The places of operands are described by the grammar: at such a place a string makes a program.
-/

namespace CSubset

open Surface Surface.Phrase
open Surface.Parser (integerValue?)
open Grammar (numeral largest)

/-- There are digits, and they are ASCII digits. -/
def IsDecimal (cs : List Char) : Prop := cs ≠ [] ∧ ∀ c ∈ cs, '0' ≤ c ∧ c ≤ '9'

/-- An operand may stand between the tokens. -/
def OperandPlace (before after : List Token) : Prop :=
  ∃ s : Token, s.kind = .string ∧ Grammar.Derives .program (before ++ s :: after)

/-- The last of the tokens before is a minus sign, and an operand may stand in its place. -/
def BehindSign (before after : List Token) : Prop :=
  ∃ front m, before = front ++ [m] ∧ m.kind = .minus ∧ OperandPlace front after

section Texts

variable (generation : UInt32) (path : String) (text : List Char)

/-- The text is read to a tree of that shape. -/
def ReadTo (t : Tree Unit) : Prop :=
  ∃ file root, File.parse generation path text = .ok file ∧ file.root = some root ∧ root.shape = t

def Refused : Prop := ∃ error, File.parse generation path text = .error error

/-- If the number is not above the limit, then the text is read with the value at that place of the
tree, and otherwise it is refused. -/
structure ReadUpTo (context : Tree.Context Unit) (limit number : Nat) (value : Int) : Prop where
  read : number ≤ limit → ∃ x : Int32, x.toInt = value ∧
    ReadTo generation path text (context.fill (.leaf () (.intConst x)))
  refused : limit < number → Refused generation path text

end Texts

/-- The number with its sign. -/
def signed (negative : Bool) (n : Nat) : Int := if negative then -n else n

theorem integerValue?_eq_some {negative : Bool} {digits : String} {x : Int32}
    (h : integerValue? negative digits = some x) :
    IsDecimal digits.toList ∧ numeral digits.toList ≤ largest negative ∧
      x.toInt = signed negative (numeral digits.toList) := by
  rw [integerValue?] at h
  obtain ⟨n, hn, h⟩ := Option.bind_eq_some_iff.mp h
  obtain ⟨hne, hdigits, rfl⟩ := Grammar.decimalValue?_eq_some_iff.mp hn
  refine ⟨⟨hne, hdigits⟩, ?_⟩
  cases negative with
  | true =>
    by_cases hle : numeral digits.toList ≤ 2147483648
    · obtain rfl : Int32.ofInt (-numeral digits.toList) = x := by simpa [guard, hle] using h
      exact ⟨hle, Int32.toInt_ofInt_of_le (by omega) (by omega)⟩
    · simp [guard, hle] at h
  | false =>
    by_cases hlt : numeral digits.toList < 2147483648
    · obtain rfl : Int32.ofInt (numeral digits.toList) = x := by simpa [guard, hlt] using h
      exact ⟨Nat.le_of_lt_succ hlt, Int32.toInt_ofInt_of_le (by omega) (by omega)⟩
    · simp [guard, hlt] at h

theorem exists_integerValue? (negative : Bool) {t : Token} (ht : t.kind = .integer)
    (hdigits : IsDecimal t.text.toList) (hle : numeral t.text.toList ≤ largest negative) :
    ∃ x, integerValue? negative t.text = some x ∧
      x.toInt = signed negative (numeral t.text.toList) := by
  obtain ⟨x, hx⟩ :=
    (Grammar.exists_integerValue?_iff ht).mpr ⟨t, ht, hdigits.1, hdigits.2, hle, rfl⟩
  exact ⟨x, hx, (integerValue?_eq_some hx).2.2⟩

/-! ## Places -/

/-- A place of an operand in a program. -/
abbrev ProgramSpot (before after : List Token) : Prop :=
  Spot .unknown Members (MembersHold Expr.outline) before after

abbrev ProgramSlot (digits : Bool) (before after : List Token) : Prop :=
  Slot .unknown digits Members (MembersHold Expr.outline) before after

section Places

variable {before after : List Token}

theorem programSpot_of_operandPlace (h : OperandPlace before after) : ProgramSpot before after := by
  obtain ⟨s, hs, hderives⟩ := h
  obtain ⟨es, hes⟩ := Grammar.derives_program_iff.mp hderives
  have hfound := hes.find .unknown (show isLiteral s.kind = true by rw [hs]; rfl) rfl
  cases hfound with
  | string _ h => exact h
  | plain hu _ _ | negative _ hu _ _ =>
    rw [hs] at hu
    cases hu

theorem operandPlace_of_slot {digits : Bool} (h : ProgramSlot digits before after) :
    OperandPlace before after := by
  obtain ⟨F, hF⟩ := h
  have hstring : Operand .unknown digits [⟨.string, "", .unknown⟩] (.str .unknown "") :=
    ⟨.primary (.string rfl), rfl, fun _ => nofun⟩
  exact ⟨_, rfl, Grammar.derives_program_iff.mpr ⟨_, hF.phrase _ _ hstring⟩⟩

/-- An integer in a program fits into 32 bits. It is an operand alone or together with the sign in
front of it. -/
theorem integer_of_members {es : List External} {t : Token} (h : Members (before ++ t :: after) es)
    (ht : t.kind = .integer) :
    IsDecimal t.text.toList ∧
      (numeral t.text.toList ≤ 2147483647 ∧ OperandPlace before after ∨
        numeral t.text.toList ≤ 2147483648 ∧ BehindSign before after) := by
  have hfound := h.find .unknown (show isLiteral t.kind = true by rw [ht]; rfl) rfl
  cases hfound with
  | string hu _ =>
    rw [ht] at hu
    cases hu
  | plain _ hvalue h =>
    obtain ⟨hdigits, hle, -⟩ := integerValue?_eq_some hvalue
    exact ⟨hdigits, .inl ⟨hle, operandPlace_of_slot h⟩⟩
  | negative hm _ hvalue h =>
    obtain ⟨hdigits, hle, -⟩ := integerValue?_eq_some hvalue
    exact ⟨hdigits, .inr ⟨hle, _, _, rfl, hm, operandPlace_of_slot h.slot⟩⟩

end Places

/-! ## Texts with an operand -/

section Reading

variable {before after : List Token} {digits : Bool}

/-- A text with an operand between the tokens is read to the tree with that operand at one place. -/
def Surrounds (generation : UInt32) (path : String) (digits : Bool) (before after : List Token)
    (context : Tree.Context Unit) : Prop :=
  ∀ us e text, Operand .unknown digits us e → Spells text (before ++ (us ++ after)) →
    ReadTo generation path text (context.fill e.outline.shape)

theorem exists_surrounds (h : ProgramSlot digits before after) (generation : UInt32)
    (path : String) : ∃ context, Surrounds generation path digits before after context := by
  obtain ⟨F, hF⟩ := h
  obtain ⟨context, hcontext⟩ := hF.holds.seq .unknown .program
  refine ⟨context.map fun _ => (), fun us e text he htext => ?_⟩
  obtain ⟨file, root, hparse, hroot, hshape⟩ :=
    parse_of_members htext (hF.phrase us e he) generation path
  refine ⟨file, root, hparse, hroot, ?_⟩
  have houtline : Program.outline ⟨.unknown, F e⟩ = context.fill e.outline := hcontext e
  rw [hshape, houtline, Tree.shape, Tree.Context.map_fill, ← Tree.shape]

theorem refused_or_members {ts : List Token} {text : List Char} (htext : Spells text ts)
    (generation : UInt32) (path : String) : Refused generation path text ∨ ∃ es, Members ts es := by
  rcases hparse : File.parse generation path text with error | file
  · exact .inl ⟨error, hparse⟩
  · exact .inr (exists_members_of_parse htext hparse)

/-- Where the first of the tokens of an operand stands is of no account. -/
theorem Spells.unplaced {text : List Char} {t : Token} {us : List Token}
    (h : Spells text (before ++ t :: us)) :
    Spells text (before ++ ⟨t.kind, t.text, .unknown⟩ :: us) := by
  rw [Spells, List.map_append, List.map_cons] at h ⊢
  exact h

variable {generation : UInt32} {path : String} {context : Tree.Context Unit} {m t : Token}
  {text : List Char}

theorem readTo_string {s : Token} (hcontext : Surrounds generation path digits before after context)
    (hs : s.kind = .string) (htext : Spells text (before ++ s :: after)) :
    ReadTo generation path text
      (context.fill (.leaf () (.strConst (Text.Utf8.encode s.text)))) := by
  refine hcontext [⟨s.kind, s.text, .unknown⟩] (.str .unknown s.text) text
    ⟨.primary (.string hs), rfl, ?_⟩ htext.unplaced
  exact fun _ h => by cases hs.symm.trans h

theorem readUpTo_negative (hcontext : Surrounds generation path false before after context)
    (hm : m.kind = .minus) (ht : t.kind = .integer) (hdigits : IsDecimal t.text.toList)
    (htext : Spells text (before ++ m :: t :: after)) :
    ReadUpTo generation path text context 2147483648 (numeral t.text.toList)
      (-numeral t.text.toList) where
  read hle := by
    obtain ⟨x, hvalue, hx⟩ := exists_integerValue? true ht hdigits hle
    refine ⟨x, hx, hcontext [⟨m.kind, m.text, .unknown⟩, t] (.int .unknown x) text
      ⟨.negative hm ht hvalue, rfl, ?_⟩ htext.unplaced⟩
    exact fun _ h => by cases hm.symm.trans h
  refused hlt := by
    refine (refused_or_members htext generation path).resolve_right ?_
    rintro ⟨es, hes⟩
    rw [List.append_cons] at hes
    obtain ⟨-, ⟨hle, -⟩ | ⟨hle, -⟩⟩ := integer_of_members hes ht <;> omega

theorem readUpTo_plain (hcontext : Surrounds generation path true before after context)
    (hsign : ¬ BehindSign before after) (ht : t.kind = .integer) (hdigits : IsDecimal t.text.toList)
    (htext : Spells text (before ++ t :: after)) :
    ReadUpTo generation path text context 2147483647 (numeral t.text.toList)
      (numeral t.text.toList) where
  read hle := by
    obtain ⟨x, hvalue, hx⟩ := exists_integerValue? false ht hdigits hle
    exact ⟨x, hx, hcontext [⟨t.kind, t.text, .unknown⟩] (.int .unknown x) text
      ⟨.primary (.integer ht hvalue), rfl, nofun⟩ htext.unplaced⟩
  refused hlt := by
    refine (refused_or_members htext generation path).resolve_right ?_
    rintro ⟨es, hes⟩
    obtain ⟨-, ⟨hle, -⟩ | ⟨-, hbehind⟩⟩ := integer_of_members hes ht
    · omega
    · exact hsign hbehind

theorem integer_of_parse {file : File} (hparse : File.parse generation path text = .ok file)
    (before : List Token) (t : Token) (after : List Token)
    (htokens : (TokenStream.ofText text).tokens = before ++ t :: after) (ht : t.kind = .integer) :
    IsDecimal t.text.toList ∧ (OperandPlace before after ∨ BehindSign before after) := by
  have htext : Spells text (before ++ t :: after) := congrArg (List.map Token.spelling) htokens
  obtain ⟨es, hes⟩ := exists_members_of_parse htext hparse
  obtain ⟨hdigits, hplace⟩ := integer_of_members hes ht
  exact ⟨hdigits, hplace.imp And.right And.right⟩

end Reading

/-- Integers have exact values. At each place of an operand, and with the tree around it fixed:
- digits behind a minus sign are read as the negative number if it is not below the least one,
- digits alone are read as the number if it is not above the largest one, unless they stand behind a
  minus sign that belongs to them,
- and a text with any other number there is refused. Each integer in a text that is read has ASCII
  digits only and stands at such a place, alone or behind its minus sign. -/
theorem integer_literals_exact (generation : UInt32) (path : String) :
    (∀ before after, OperandPlace before after → ∃ context : Tree.Context Unit,
      (∀ (s : Token) text, s.kind = .string → Spells text (before ++ s :: after) →
        ReadTo generation path text
          (context.fill (.leaf () (.strConst (Text.Utf8.encode s.text))))) ∧
      (∀ (m t : Token) text, m.kind = .minus → t.kind = .integer → IsDecimal t.text.toList →
        Spells text (before ++ m :: t :: after) →
        ReadUpTo generation path text context 2147483648 (numeral t.text.toList)
          (-numeral t.text.toList)) ∧
      (¬ BehindSign before after → ∀ (t : Token) text, t.kind = .integer → IsDecimal t.text.toList →
        Spells text (before ++ t :: after) →
        ReadUpTo generation path text context 2147483647 (numeral t.text.toList)
          (numeral t.text.toList))) ∧
    (∀ text file, File.parse generation path text = .ok file → ∀ before t after,
      (TokenStream.ofText text).tokens = before ++ t :: after → t.kind = .integer →
        IsDecimal t.text.toList ∧ (OperandPlace before after ∨ BehindSign before after)) ∧
    ∀ text, ∀ t ∈ (TokenStream.ofText text).tokens, t.kind = .integer →
      (∃ c ∈ t.text.toList, ¬ ('0' ≤ c ∧ c ≤ '9')) → Refused generation path text := by
  refine ⟨fun before after hplace => ?_, fun text file => integer_of_parse, ?_⟩
  · cases programSpot_of_operandPlace hplace with
    | free h =>
      obtain ⟨context, hcontext⟩ := exists_surrounds h generation path
      -- One context serves for all operands, also for those that do not begin with an integer.
      refine ⟨context, fun s text => readTo_string hcontext, fun m t text => readUpTo_negative
        fun us e text he => ?_, fun hsign t text => readUpTo_plain hcontext hsign⟩
      exact hcontext us e text he.mono
    | negated hm h hbefore =>
      obtain ⟨context, hcontext⟩ := exists_surrounds h generation path
      refine ⟨context, fun s text => readTo_string hcontext,
        fun m t text => readUpTo_negative hcontext, fun hsign => ?_⟩
      exact absurd ⟨_, _, rfl, hm, operandPlace_of_slot hbefore⟩ hsign
  · rintro text t hmem ht ⟨c, hc, hdigit⟩
    obtain ⟨before, after, htokens⟩ := List.append_of_mem hmem
    rcases hparse : File.parse generation path text with error | file
    · exact ⟨error, hparse⟩
    · exact absurd ((integer_of_parse hparse _ _ _ htokens ht).1.2 c hc) hdigit

/-- The tokens in front of a value that is returned. -/
def returnBefore : List Token :=
  [Printing.fixed .kwInt, Printing.named "f", Printing.fixed .leftParen, Printing.fixed .rightParen,
    Printing.fixed .leftBrace, Printing.fixed .kwReturn]

/-- The tokens behind it. -/
def returnAfter : List Token := [Printing.fixed .semicolon, Printing.fixed .rightBrace]

/-- The least integer is read, with a comment behind its sign, and its digits alone are refused. -/
theorem least_integer_read :
    ∃ (context : Tree.Context Unit) (x : Int32), x.toInt = -2147483648 ∧
      ReadTo 0 "a.c" "int f() \x7b return - /* */ 02147483648; \x7d".toList
        (context.fill (.leaf () (.intConst x))) ∧
      Refused 0 "a.c" "int f() \x7b return 2147483648; \x7d".toList := by
  have hstring : Spells "int f() \x7b return \x22\x22; \x7d".toList
      (returnBefore ++ Printing.quoted "" :: returnAfter) := by
    decide +kernel
  have hok : ((File.parse 0 "a.c" "int f() \x7b return \x22\x22; \x7d".toList).toOption.any fun _ =>
      true) = true := by
    decide +kernel
  obtain ⟨file, hparse, -⟩ := exists_ok_of_any hok
  have hplace : OperandPlace returnBefore returnAfter :=
    ⟨_, rfl, Grammar.derives_program_iff.mpr (exists_members_of_parse hstring hparse)⟩
  have hsign : ¬ BehindSign returnBefore returnAfter := by
    rintro ⟨front, m, heq, hm, -⟩
    have hlast := congrArg List.getLast? heq
    rw [List.getLast?_concat] at hlast
    obtain rfl := Option.some.inj hlast
    cases hm
  obtain ⟨context, -, hnegative, hplain⟩ := (integer_literals_exact 0 "a.c").1 _ _ hplace
  have hleast : Spells "int f() \x7b return - /* */ 02147483648; \x7d".toList
      (returnBefore ++ Printing.fixed .minus :: ⟨.integer, "02147483648", .unknown⟩ ::
      returnAfter) := by
    decide +kernel
  have hlarge : Spells "int f() \x7b return 2147483648; \x7d".toList
      (returnBefore ++ ⟨.integer, "2147483648", .unknown⟩ :: returnAfter) := by decide +kernel
  obtain ⟨x, hx, hread⟩ :=
    (hnegative _ _ _ rfl rfl (by simp [IsDecimal]) hleast).read (by decide +kernel)
  exact ⟨context, x, hx, hread, (hplain hsign _ _ rfl (by simp [IsDecimal]) hlarge).refused
    (by decide +kernel)⟩

end CSubset
