import Jack.Json
import Jack.Text.Markup
import Jack.Text.Span
import Jack.Token.Kind

/-!
# Tokens
-/

namespace Jack

/-- A token: its kind, its literal text and where it stands. A string constant keeps its text without
the quotes around it. -/
structure Token where
  kind : Kind
  lexeme : String
  span : Span
deriving DecidableEq, Repr, Inhabited

namespace Token

def endOfInput (offset line : Nat) : Token := ⟨.eof, "", .point offset line⟩

def line (t : Token) : Nat := t.span.line

def isEof (t : Token) : Bool := t.kind == .eof

/-- The token as a markup element, such as `<symbol> &lt; </symbol>`. -/
def markup (t : Token) : String := Markup.element t.kind.category t.lexeme

def fields (t : Token) : List (String × Json) :=
  [("kind", .string t.kind.name), ("lexeme", .string t.lexeme),
    ("span", .object [("start", .number t.span.start), ("end", .number t.span.stop),
      ("line", .number t.span.line)])]

def toJson (t : Token) : Json := .object t.fields

def listing (ending : LineEnding) (tokens : List Token) : String :=
  Markup.lines ending (Markup.openTag "tokens" :: tokens.map markup ++ [Markup.closeTag "tokens"])

end Token

end Jack
