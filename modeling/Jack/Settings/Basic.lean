import Jack.Text.Markup

/-!
# Settings
-/

namespace Jack

inductive OutputFormat where
  | xml
  | json
deriving DecidableEq, Repr, Inhabited

def OutputFormat.extension : OutputFormat → String
  | .xml => "xml"
  | .json => "json"

def defaultMaxDepth : Nat := 256

structure Settings where
  lineEnding : LineEnding := .crlf
  maxDepth : Nat := defaultMaxDepth
  format : OutputFormat := .xml
deriving DecidableEq, Repr

instance : Inhabited Settings := ⟨{}⟩

end Jack
