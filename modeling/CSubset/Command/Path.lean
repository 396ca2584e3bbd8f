/-!
# Paths

A path is a list of pieces between slashes. Cleaning is lexical: it drops empty pieces and `.`, and
lets `..` take back the piece before it.
-/

namespace CSubset.Command.Path

/-- The pieces between slashes; some may be empty. -/
def splitSlashes : List Char → List (List Char)
  | [] => [[]]
  | c :: cs =>
    if c = '/' then [] :: splitSlashes cs
    else match splitSlashes cs with
      | [] => [[c]]
      | piece :: pieces => (c :: piece) :: pieces

def pieces (path : String) : List String := (splitSlashes path.toList).map String.ofList

def join (pieces : List String) : String := "/".intercalate pieces

def isRooted (path : String) : Bool := path.toList.head? = some '/'

/-- Add a piece to those before it, the last of which comes first. -/
def push (rooted : Bool) (before : List String) (piece : String) : List String :=
  if piece = "" ∨ piece = "." then before
  else if piece = ".." then
    match before with
    | [] => if rooted then [] else [".."]
    | last :: earlier => if last = ".." then ".." :: before else earlier
  else piece :: before

/-- The shortest path that means the same, if no piece is a link. -/
def clean (path : String) : String :=
  let rooted := isRooted path
  let kept := ((pieces path).foldl (push rooted) []).reverse
  if rooted then "/" ++ join kept
  else if kept.isEmpty then "." else join kept

/-- The path of `name` in `dir`. -/
def within (dir name : String) : String := clean (if dir.isEmpty then name else dir ++ "/" ++ name)

/-- The last piece of a path. -/
def base (path : String) : String :=
  if path.isEmpty then "."
  else ((pieces path).reverse.find? (· ≠ "")).getD "/"

end CSubset.Command.Path
