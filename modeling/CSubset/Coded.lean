/-!
# Enumerations with codes

The members of an enumeration are numbered from zero. A code outside the enumeration can occur
wherever a tree or an error comes from outside, so `Coded α` holds a member or such a code.
-/

namespace CSubset

/-- A type whose members have codes and texts. -/
class Enumeration (α : Type) where
  /-- The name under which a code outside the enumeration is shown. -/
  label : String
  /-- The members in the order of their codes. -/
  members : List α
  text : α → String

/-- A member of an enumeration, or a code that belongs to none. -/
inductive Coded (α : Type) where
  | known (member : α)
  | unknown (code : Int)
  deriving DecidableEq, Repr

namespace Coded

variable {α : Type} [Enumeration α]

def ofCode : Int → Coded α
  | .ofNat n => match (Enumeration.members : List α)[n]? with
    | some a => .known a
    | none => .unknown (.ofNat n)
  | .negSucc n => .unknown (.negSucc n)

/-- The member that is written `text`. -/
def ofText? (text : String) : Option (Coded α) :=
  ((Enumeration.members : List α).find? (Enumeration.text · == text)).map .known

def text : Coded α → String
  | .known a => Enumeration.text a
  | .unknown code => s!"{Enumeration.label α}({code})"

end Coded

end CSubset
