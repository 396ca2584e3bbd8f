import CSubset.Command.Files
import CSubset.Command.Report
import CSubset.Text.Quoted
import CSubset.Text.Utf8
import CSubset.Token.Stream

/-!
# Listing the tokens of a file

One line per token, up to the end of the text or the first illegal token.
-/

namespace CSubset.Command.TokenList

def usage : String := "usage: debug_tokens <file>"

/-- A text with blanks up to eight characters. -/
def padded (text : String) : String :=
  text ++ String.ofList (List.replicate (8 - text.length) ' ')

def tokenLine (t : Token) : String :=
  line s!"{t.pos.line}:{t.pos.col}\t{padded t.kind.text} {Text.Quoted.quote t.text}"

/-- The tokens up to the first that ends the list. -/
def upToEnd : List Token → List Token
  | [] => []
  | t :: ts => if t.kind = .eof ∨ t.kind = .illegal then [t] else t :: upToEnd ts

def listing (bytes : List UInt8) : String :=
  let stream := TokenStream.ofText (Text.Utf8.decode bytes)
  String.join ((upToEnd (stream.tokens ++ [stream.endToken])).map tokenLine)

def run {m : Type → Type} [Monad m] (files : Files m) (args : List String) : m Report := do
  match args with
  | [] => return ⟨2, line usage, ""⟩
  | path :: _ =>
    match ← files.read path with
    | .error e => return ⟨1, "", line s!"read error: {e.message}"⟩
    | .ok bytes => return ⟨0, listing bytes, ""⟩

end CSubset.Command.TokenList
