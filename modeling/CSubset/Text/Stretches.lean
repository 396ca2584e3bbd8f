/-!
# Stretches of code points

A character class is given by the lengths of the stretches of code points that lie outside and
inside of it in turn, from the code point 0 on. All beyond the last stretch is outside.
-/

namespace CSubset.Text

/-- Whether `n` lies in a stretch that is inside, where the first one is so if `inside` is set. -/
def inStretches : Bool → List Nat → Nat → Bool
  | _, [], _ => false
  | inside, length :: rest, n =>
    if n < length then inside else inStretches (!inside) rest (n - length)

end CSubset.Text
