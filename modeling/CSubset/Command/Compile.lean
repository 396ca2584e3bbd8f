import CSubset.Command.Files
import CSubset.Command.Options
import CSubset.Command.Report
import CSubset.Lowering
import CSubset.Text.Utf8
import CSubset.Tree.File

/-!
# The compiler's command line

A source is compiled twice: as it stands, and folded. Both modules are written, also when something
in them was rejected; the exit code says whether all went well.
-/

namespace CSubset.Command.Compile

def usage : String := "usage: minicc [-o dir] [-S] <file.c>"

def rawName : String := "unoptimized_ir.ll"

def foldedName : String := "optimized_ir.ll"

/-- What writing one module left behind. -/
structure Written where
  succeeded : Bool
  stderr : String
  /-- The text of the module, if it could be written. -/
  text : Option String

/-- Lower a file and write its module. -/
def writeModule {m : Type → Type} [Monad m] (files : Files m) (f : File) (path : String) :
    m Written := do
  match Lowering.build (Path.base f.name) f.root with
  | .error _ => return ⟨false, line "internal error", none⟩
  | .ok outcome =>
    let warnings := unlines (outcome.warnings.map (·.text))
    let errors := unlines ((outcome.result.map (Failure.report f.name)).getD [])
    let text := outcome.state.module.text
    match ← files.write path text with
    | .error e => return ⟨false, warnings ++ errors ++ line s!"write error: {e.message}", none⟩
    | .ok _ => return ⟨outcome.result.isNone, warnings ++ errors, some text⟩

/-- Write both modules of a source. -/
def writeModules {m : Type → Type} [Monad m] (files : Files m) (o : Options) (f : File) :
    m Report := do
  let raw ← writeModule files f (Path.within o.outDir rawName)
  match f.fold (f.arena.generation + 1) with
  | .error e => return ⟨1, "", raw.stderr ++ line s!"{o.source}: {e.message}"⟩
  | .ok folded =>
    let opt ← writeModule files folded (Path.within o.outDir foldedName)
    let stdout := if o.print then opt.text.getD "" else ""
    let code := if raw.succeeded && opt.succeeded then 0 else 1
    return ⟨code, stdout, raw.stderr ++ opt.stderr⟩

def run {m : Type → Type} [Monad m] (files : Files m) (args : List String) : m Report := do
  match Options.parse args with
  | .error e => return ⟨2, "", line s!"minicc: {e.message}" ++ line usage⟩
  | .ok o =>
    match ← files.read o.source with
    | .error e => return ⟨1, "", line s!"read error: {e.message}"⟩
    | .ok bytes =>
      match File.parse 0 o.source (Text.Utf8.decode bytes) with
      | .error e => return ⟨1, "", line s!"{o.source}: {e.message}"⟩
      | .ok f =>
        match ← files.makeDirs o.outDir with
        | .error e => return ⟨1, "", line s!"write error: {e.message}"⟩
        | .ok _ => writeModules files o f

end CSubset.Command.Compile
