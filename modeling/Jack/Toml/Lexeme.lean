import Jack.Text.Numeral

/-!
# The words of a settings document

Blanks, comments, keys, strings and whole numbers. Each reader takes a text and gives what it read and the
text after it, or nothing if the text does not begin that way. Lines end in line feeds here: a carriage
return before a line feed is dropped beforehand, and one that stands alone is never allowed.
-/

namespace Jack.Toml

/-- Drops the carriage return of every carriage return and line feed. -/
def joinLineEnds : List Char → List Char
  | '\r' :: '\n' :: rest => '\n' :: joinLineEnds rest
  | c :: rest => c :: joinLineEnds rest
  | [] => []

/-! ## Blanks and comments -/

def isSpace (c : Char) : Bool := c == ' ' || c == '\t'

def skipSpace (text : List Char) : List Char := text.dropWhile isSpace

/-- A character of a comment: any but control characters, though a tab is allowed. -/
def isCommentChar (c : Char) : Bool := c == '\t' || (0x20 ≤ c.toNat && c.toNat != 0x7f)

/-- Skips blanks and a comment up to the end of the line, and the end of the line itself. -/
def endLine? (text : List Char) : Option (List Char) :=
  let rest := match skipSpace text with
    | '#' :: comment => comment.dropWhile isCommentChar
    | rest => rest
  match rest with
  | [] => some []
  | '\n' :: rest => some rest
  | _ => none

/-! ## Strings -/

/-- The value of a digit in a base of at most sixteen; letters may be in either case. -/
def digit? (base : Nat) (c : Char) : Option Nat :=
  let value? :=
    if c.isDigit then some (Numeral.digit c)
    else if 'a' ≤ c ∧ c ≤ 'f' then some (c.toNat - 'a'.toNat + 10)
    else if 'A' ≤ c ∧ c ≤ 'F' then some (c.toNat - 'A'.toNat + 10)
    else none
  value?.filter (· < base)

/-- The character with the given hexadecimal code, unless it is a surrogate or out of range. -/
def charOfHex? (code : List Char) : Option Char := do
  let value := Numeral.ofDigits 16 (← code.mapM (digit? 16))
  if value.isValidChar then some (Char.ofNat value) else none

/-- The character that a backslash and a letter stand for. -/
def charOfEscape? : Char → Option Char
  | 'b' => some '\x08'
  | 't' => some '\t'
  | 'n' => some '\n'
  | 'f' => some '\x0c'
  | 'r' => some '\r'
  | '"' => some '"'
  | '\\' => some '\\'
  | _ => none

def escape? : List Char → Option (Char × List Char)
  | 'u' :: a :: b :: c :: d :: rest => do return (← charOfHex? [a, b, c, d], rest)
  | 'U' :: a :: b :: c :: d :: e :: f :: g :: h :: rest => do
    return (← charOfHex? [a, b, c, d, e, f, g, h], rest)
  | c :: rest => do return (← charOfEscape? c, rest)
  | [] => none

/-- What a quoted text allows. -/
structure QuoteStyle where
  quote : Char
  /-- Whether a backslash begins an escape sequence. -/
  escapes : Bool
  /-- Whether the text may go over several lines; then three quotes end it. -/
  multiline : Bool
deriving DecidableEq, Repr

/-- Whether a text begins with `n` quotes. -/
def QuoteStyle.quotesAhead (style : QuoteStyle) (n : Nat) (text : List Char) : Bool :=
  (List.replicate n style.quote).isPrefixOf text

/-- The end of a quoted text: the quotes that still belong to it, and the text after it. Up to two quotes
may stand right before the three that end a text of several lines. -/
def QuoteStyle.close? (style : QuoteStyle) (text : List Char) : Option (List Char × List Char) :=
  if style.multiline then
    if style.quotesAhead 5 text then some ([style.quote, style.quote], text.drop 5)
    else if style.quotesAhead 4 text then some ([style.quote], text.drop 4)
    else if style.quotesAhead 3 text then some ([], text.drop 3)
    else none
  else if style.quotesAhead 1 text then some ([], text.drop 1)
  else none

/-- The blanks and line ends that a backslash at the end of a line takes away. -/
def continuation? (text : List Char) : Option (List Char) :=
  match skipSpace text with
  | '\n' :: rest => some (rest.dropWhile fun c => isSpace c || c == '\n')
  | _ => none

/-- The rest of a quoted text after its opening quotes; `fuel` bounds the number of characters. -/
def quotedBody? (style : QuoteStyle) : (fuel : Nat) → List Char → Option (List Char × List Char)
  | 0, _ => none
  | fuel + 1, text =>
    match style.close? text, text with
    | some ending, _ => some ending
    | none, [] => none
    | none, c :: rest =>
      let goOn (front rest : List Char) :=
        (quotedBody? style fuel rest).map fun (body, after) => (front ++ body, after)
      if c = '\\' ∧ style.escapes then
        match style.multiline, continuation? rest with
        | true, some rest => goOn [] rest
        | _, _ =>
          match escape? rest with
          | some (meant, rest) => goOn [meant] rest
          | none => none
      else if c = '\n' then if style.multiline then goOn [c] rest else none
      else if isCommentChar c then goOn [c] rest
      else none

def QuoteStyle.read? (style : QuoteStyle) (text : List Char) : Option (String × List Char) := do
  let (body, rest) ← quotedBody? style (text.length + 1) text
  return (String.ofList body, rest)

def quotedLine? : List Char → Option (String × List Char)
  | '"' :: rest => QuoteStyle.read? ⟨'"', true, false⟩ rest
  | '\'' :: rest => QuoteStyle.read? ⟨'\'', false, false⟩ rest
  | _ => none

/-- A line end right after the opening quotes is not part of the text. -/
def skipNewline : List Char → List Char
  | '\n' :: rest => rest
  | text => text

def quoted? : List Char → Option (String × List Char)
  | '"' :: '"' :: '"' :: rest => QuoteStyle.read? ⟨'"', true, true⟩ (skipNewline rest)
  | '\'' :: '\'' :: '\'' :: rest => QuoteStyle.read? ⟨'\'', false, true⟩ (skipNewline rest)
  | text => quotedLine? text

/-! ## Keys -/

def isKeyChar (c : Char) : Bool := c.isAlphanum || c == '_' || c == '-'

/-- One part of a key: a word, or a quoted text. -/
def simpleKey? (text : List Char) : Option (String × List Char) :=
  match text.takeWhile isKeyChar with
  | [] => quotedLine? text
  | word => some (String.ofList word, text.dropWhile isKeyChar)

/-- A key with dots between its parts: the parts before the last one, the last one, and the text after
them and any blanks; `fuel` bounds the number of parts. -/
def dottedKey? : (fuel : Nat) → List Char → Option (List String × String × List Char)
  | 0, _ => none
  | fuel + 1, text => do
    let (part, rest) ← simpleKey? (skipSpace text)
    match skipSpace rest with
    | '.' :: rest =>
      let (path, last, rest) ← dottedKey? fuel rest
      return (part :: path, last, rest)
    | rest => return ([], part, rest)

def key? (text : List Char) : Option (List String × String × List Char) := dottedKey? (text.length + 1) text

/-! ## Whole numbers -/

/-- Digits, with single underscores between them where the writer likes. -/
def groupedDigits? (base : Nat) : List Char → Option (List Nat)
  | [] => none
  | [c] => do return [← digit? base c]
  | c :: '_' :: rest => do return (← digit? base c) :: (← groupedDigits? base rest)
  | c :: rest => do return (← digit? base c) :: (← groupedDigits? base rest)

def digits? (base : Nat) (text : List Char) : Option (List Nat × List Char) := do
  let isPart := fun c => (digit? base c).isSome || c == '_'
  return (← groupedDigits? base (text.takeWhile isPart), text.dropWhile isPart)

/-- The largest whole number; the smallest is its negative less one. -/
def maxInteger : Nat := 0x7fffffffffffffff

def basedInteger? (base : Nat) (text : List Char) : Option (Int × List Char) := do
  let (digits, rest) ← digits? base text
  let value := Numeral.ofDigits base digits
  if value ≤ maxInteger then some (value, rest) else none

/-- A decimal number without a sign. Zeros in front are not allowed. -/
def decimal? (text : List Char) : Option (Nat × List Char) := do
  let (digits, rest) ← digits? 10 text
  match digits with
  | 0 :: _ :: _ => none
  | digits => some (Numeral.ofDigits 10 digits, rest)

/-- A whole number: decimal with or without a sign, or without a sign in base sixteen, eight or two. -/
def integer? : List Char → Option (Int × List Char)
  | '0' :: 'x' :: rest => basedInteger? 16 rest
  | '0' :: 'o' :: rest => basedInteger? 8 rest
  | '0' :: 'b' :: rest => basedInteger? 2 rest
  | '-' :: rest => do
    let (value, rest) ← decimal? rest
    if value ≤ maxInteger + 1 then some (-value, rest) else none
  | text => do
    let unsigned := match text with
      | '+' :: rest => rest
      | text => text
    let (value, rest) ← decimal? unsigned
    if value ≤ maxInteger then some (value, rest) else none

end Jack.Toml
