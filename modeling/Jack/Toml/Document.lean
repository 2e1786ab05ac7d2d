import Jack.Toml.Lexeme
import Jack.Toml.Table

/-!
# Settings documents

Values, lines and whole documents. Only whether a document can be read counts, and what it then says;
there is one way to fail.
-/

namespace Jack.Toml

/-! ## Values -/

/-- An array without items: blanks, line ends and comments may stand between its brackets; `fuel` bounds
the number of lines. -/
def emptyArray? : (fuel : Nat) → List Char → Option (List Char)
  | 0, _ => none
  | fuel + 1, text =>
    match skipSpace text with
    | ']' :: rest => some rest
    | rest => (endLine? rest).bind (emptyArray? fuel)

mutual

/-- A value; `fuel` bounds the number of values and the nesting of tables. -/
def value? : (fuel : Nat) → List Char → Option (Value × List Char)
  | 0, _ => none
  | fuel + 1, text =>
    match text with
    | '"' :: _ | '\'' :: _ => do
      let (text, rest) ← quoted? text
      return (.string text, rest)
    | '[' :: rest => do return (.emptyArray, ← emptyArray? (rest.length + 1) rest)
    | '{' :: rest =>
      match skipSpace rest with
      | '}' :: rest => some (.table .inline [], rest)
      | rest => inlineTable? fuel [] rest
    | text => do
      let (value, rest) ← integer? text
      return (.integer value, rest)

/-- The rest of a table between braces, after the entries read so far. -/
def inlineTable? : (fuel : Nat) → Entries → List Char → Option (Value × List Char)
  | 0, _, _ => none
  | fuel + 1, entries, text => do
    let (path, key, rest) ← key? text
    match rest with
    | '=' :: rest =>
      let (value, rest) ← value? fuel (skipSpace rest)
      let entries ← entries.assign? key value path
      match skipSpace rest with
      | ',' :: rest => inlineTable? fuel entries rest
      | '}' :: rest => some (.table .inline entries, rest)
      | _ => none
    | _ => none

end

/-! ## Documents -/

/-- A document that is read in part: its table, and the path to the table of the last header. -/
structure Draft where
  entries : Entries
  place : List String
deriving Inhabited

/-- A header, after its opening bracket. A second bracket opens an array of tables, which no setting
takes. -/
def header? (draft : Draft) (text : List Char) : Option (Draft × List Char) := do
  let (path, key, rest) ← key? text
  match rest with
  | ']' :: rest =>
    let rest ← endLine? rest
    return (⟨← draft.entries.openTable? key path, path ++ [key]⟩, rest)
  | _ => none

def keyValue? (draft : Draft) (text : List Char) : Option (Draft × List Char) := do
  let (path, key, rest) ← key? text
  match rest with
  | '=' :: rest =>
    let (value, rest) ← value? (rest.length + 1) (skipSpace rest)
    let rest ← endLine? rest
    let change := fun entries => Entries.assign? entries key value path
    return ({ draft with entries := ← draft.entries.within? change draft.place }, rest)
  | _ => none

def line? (draft : Draft) (text : List Char) : Option (Draft × List Char) :=
  match skipSpace text with
  | '[' :: rest => header? draft rest
  | [] => some (draft, [])
  | '#' :: rest => do return (draft, ← endLine? ('#' :: rest))
  | '\n' :: rest => some (draft, rest)
  | text => keyValue? draft text

/-- The lines of a document; `fuel` bounds their number. -/
def lines? : (fuel : Nat) → Draft → List Char → Option Entries
  | 0, draft, text => if text.isEmpty then some draft.entries else none
  | fuel + 1, draft, text =>
    if text.isEmpty then some draft.entries
    else do
      let (draft, rest) ← line? draft text
      lines? fuel draft rest

/-- The table that a whole document describes. A byte order mark at its start is ignored. -/
def read? (document : String) : Option Entries :=
  let text := joinLineEnds document.toList
  let text := match text with
    | '\ufeff' :: rest => rest
    | text => text
  lines? text.length ⟨[], []⟩ text

end Jack.Toml
