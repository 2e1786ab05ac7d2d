/-!
# Markup

Text inside markup has the four reserved characters replaced by entities. A trace is written line by
line, with a choice of line ending.
-/

namespace Jack

inductive LineEnding where
  | crlf
  | lf
deriving DecidableEq, Repr, Inhabited

def LineEnding.text : LineEnding → String
  | .crlf => "\r\n"
  | .lf => "\n"

namespace Markup

def entity : Char → List Char
  | '<' => "&lt;".toList
  | '>' => "&gt;".toList
  | '&' => "&amp;".toList
  | '"' => "&quot;".toList
  | c => [c]

def escape (text : String) : String := String.ofList (text.toList.flatMap entity)

def openTag (name : String) : String := String.join ["<", name, ">"]

def closeTag (name : String) : String := String.join ["</", name, ">"]

/-- An element on one line, with a blank on either side of its escaped content. -/
def element (name content : String) : String :=
  String.join [openTag name, " ", escape content, " ", closeTag name]

/-- Ends every line with the given line ending and puts them together. -/
def lines (ending : LineEnding) (items : List String) : String :=
  String.join (items.map (· ++ ending.text))

end Markup

end Jack
