/-!
# Command line options

    [-o dir] [-S] file

Options and the file may come in any order and options may be repeated; the last directory counts.
An empty argument counts as no file.
-/

namespace CSubset.Command

structure Options where
  outDir : String
  source : String
  /-- Whether the folded module is also printed. -/
  print : Bool
  deriving DecidableEq, Repr

inductive UsageError where
  | missingDirectory
  | unknownFlag (arg : String)
  | unexpectedArgument (arg : String)
  | noInput
  deriving DecidableEq, Repr

def UsageError.message : UsageError → String
  | .missingDirectory => "-o needs a directory"
  | .unknownFlag arg => s!"unknown flag {arg}"
  | .unexpectedArgument arg => s!"unexpected argument {arg}"
  | .noInput => "no input file"

namespace Options

/-- Read the arguments from left to right, with what the earlier ones said. The first bad one is
reported. -/
def parseFrom (o : Options) : List String → Except UsageError Options
  | [] => if o.source.isEmpty then .error .noInput else .ok o
  | "-o" :: rest =>
    match rest with
    | [] => .error .missingDirectory
    | dir :: rest => parseFrom { o with outDir := dir } rest
  | "-S" :: rest => parseFrom { o with print := true } rest
  | arg :: rest =>
    if arg.toList.head? = some '-' then .error (.unknownFlag arg)
    else if o.source.isEmpty then parseFrom { o with source := arg } rest
    else .error (.unexpectedArgument arg)

def parse (args : List String) : Except UsageError Options := parseFrom ⟨".", "", false⟩ args

end Options

end CSubset.Command
