/-!
# Reports

What a command leaves behind besides files.
-/

namespace CSubset.Command

structure Report where
  code : UInt32
  stdout : String
  stderr : String
  deriving DecidableEq, Repr

/-- A text of one line. -/
def line (text : String) : String := text ++ "\n"

/-- A text of several lines. -/
def unlines (texts : List String) : String := String.join (texts.map line)

end CSubset.Command
