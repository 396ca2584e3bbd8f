import CSubset.Command.Compile

/-!
# The compiler as a program
-/

namespace CSubset.Command

/-- Why the system refused a request. Only its text says which way round files and directories were
confused. -/
def causeOf : IO.Error → PathCause
  | .noFileOrDirectory .. => .notFound
  | .inappropriateType _ _ details =>
    if details.toLower = PathCause.notDirectory.text then .notDirectory else .isDirectory
  | e => .other e.toString

/-- Answer a request on the system's files. -/
def onSystem {α : Type} (refused : IO.Error → PathError) (answer : IO α) :
    IO (Except PathError α) := do
  try
    return .ok (← answer)
  catch e => return .error (refused e)

/-- A directory can be opened but not read. -/
def readRefused (path : String) (e : IO.Error) : PathError :=
  let cause := causeOf e
  ⟨if cause = .isDirectory then "read" else "open", path, cause⟩

/-- Something that is there already and is not a directory stands in the way. -/
def makeDirsRefused (path : String) : IO.Error → PathError
  | .alreadyExists place _ _ => ⟨"mkdir", place.getD path, .notDirectory⟩
  | e => ⟨"mkdir", path, causeOf e⟩

/-- The files of the system. -/
def systemFiles : Files IO where
  read path := onSystem (readRefused path) do return (← IO.FS.readBinFile path).toList
  makeDirs path := onSystem (makeDirsRefused path) (IO.FS.createDirAll path)
  write path text := onSystem (fun e => ⟨"open", path, causeOf e⟩) (IO.FS.writeFile path text)

end CSubset.Command

def main (args : List String) : IO UInt32 := do
  let report ← CSubset.Command.Compile.run CSubset.Command.systemFiles args
  IO.print report.stdout
  IO.eprint report.stderr
  return report.code
