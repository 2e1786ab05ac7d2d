/-!
# Structured output

Values of the data format that structured output uses, and its two layouts: compact, and one item per
line with two blanks of indentation for each level.
-/

namespace Jack

inductive Json where
  | number (value : Nat)
  | string (text : String)
  | array (items : List Json)
  | object (fields : List (String × Json))
deriving Repr, Inhabited

namespace Json

/-- The sixteen digits, the letters in lower case. -/
def hexDigit (n : Nat) : Char := (Nat.toDigits 16 n).headD '0'

/-- A character as it is written between quotes: quotes, backslashes and control characters are escaped. -/
def escapeChar (c : Char) : List Char :=
  match c with
  | '"' => ['\\', '"']
  | '\\' => ['\\', '\\']
  | '\x08' => ['\\', 'b']
  | '\x0c' => ['\\', 'f']
  | '\n' => ['\\', 'n']
  | '\r' => ['\\', 'r']
  | '\t' => ['\\', 't']
  | c =>
    if c.toNat < 0x20 then ['\\', 'u', '0', '0', hexDigit (c.toNat / 16), hexDigit (c.toNat % 16)]
    else [c]

def quote (text : String) : String := String.ofList ('"' :: text.toList.flatMap escapeChar ++ ['"'])

def newLine (level : Nat) : String := String.ofList ('\n' :: List.replicate (2 * level) ' ')

/-! ## The compact layout -/

mutual

def compactPieces : Json → List String
  | .number value => [toString value]
  | .string text => [quote text]
  | .array items => "[" :: compactItems items ++ ["]"]
  | .object fields => "\x7b" :: compactFields fields ++ ["\x7d"]

def compactItems : List Json → List String
  | [] => []
  | [item] => compactPieces item
  | item :: rest => compactPieces item ++ "," :: compactItems rest

def compactFields : List (String × Json) → List String
  | [] => []
  | [(key, value)] => quote key :: ":" :: compactPieces value
  | (key, value) :: rest => quote key :: ":" :: compactPieces value ++ "," :: compactFields rest

end

def compact (value : Json) : String := String.join value.compactPieces

/-! ## The indented layout -/

mutual

/-- The pieces of the indented text of a value that starts at a level. An empty array or object stays
on one line. -/
def prettyPieces (level : Nat) : Json → List String
  | .number value => [toString value]
  | .string text => [quote text]
  | .array [] => ["[]"]
  | .array items => "[" :: prettyItems (level + 1) items ++ [newLine level, "]"]
  | .object [] => ["\x7b\x7d"]
  | .object fields => "\x7b" :: prettyFields (level + 1) fields ++ [newLine level, "\x7d"]

def prettyItems (level : Nat) : List Json → List String
  | [] => []
  | [item] => newLine level :: prettyPieces level item
  | item :: rest => newLine level :: prettyPieces level item ++ "," :: prettyItems level rest

def prettyFields (level : Nat) : List (String × Json) → List String
  | [] => []
  | [(key, value)] => newLine level :: quote key :: ": " :: prettyPieces level value
  | (key, value) :: rest =>
    newLine level :: quote key :: ": " :: prettyPieces level value ++ "," :: prettyFields level rest

end

def pretty (value : Json) : String := String.join (value.prettyPieces 0)

end Json

end Jack
