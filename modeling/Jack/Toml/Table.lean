import Jack.AssocList

/-!
# Tables of settings

A settings document is a table of named values. A table may be written in parts, and how each part is
written decides which later parts may add to it; a name is never given two values.
-/

namespace Jack.Toml

inductive Origin where
  | header
  /-- Only mentioned on the way to a table with a header. -/
  | implied
  /-- Mentioned in a dotted key. -/
  | dotted
  | inline
deriving DecidableEq, Repr, Inhabited

/-- A value in a settings document. Dates, fractions, truth values and arrays with items are refused by
the reader, since no setting takes them. -/
inductive Value where
  | integer (value : Int)
  | string (text : String)
  | emptyArray
  | table (origin : Origin) (entries : List (String × Value))
deriving Repr, Inhabited

abbrev Entries := List (String × Value)

namespace Entries

def put (entries : Entries) (key : String) (value : Value) : Entries := AssocList.put entries key value

def add? (entries : Entries) (key : String) (value : Value) : Option Entries :=
  match entries.lookup key with
  | some _ => none
  | none => some (entries.put key value)

/-- Gives a value to a name behind a path of tables, all of which are new or come from dotted keys. A
table that a header merely implied may be passed through, but not added to. -/
def assign? (entries : Entries) (key : String) (value : Value) :
    (path : List String) → Option Entries
  | [] => entries.add? key value
  | step :: path =>
    match entries.lookup step with
    | none => do return entries.put step (.table .dotted (← assign? [] key value path))
    | some (.table .dotted inner) => do
      return entries.put step (.table .dotted (← assign? inner key value path))
    | some (.table .implied inner) =>
      if path.isEmpty then none
      else do return entries.put step (.table .implied (← assign? inner key value path))
    | some _ => none

/-- Opens the table that a header names. It must be new, or only implied by earlier headers. -/
def openTable? (entries : Entries) (key : String) : (path : List String) → Option Entries
  | [] =>
    match entries.lookup key with
    | none => some (entries.put key (.table .header []))
    | some (.table .implied inner) => some (entries.put key (.table .header inner))
    | some _ => none
  | step :: path =>
    match entries.lookup step with
    | none => do return entries.put step (.table .implied (← openTable? [] key path))
    | some (.table .inline _) => none
    | some (.table origin inner) => do
      return entries.put step (.table origin (← openTable? inner key path))
    | some _ => none

/-- Changes the entries of the table at the end of a path. -/
def within? (change : Entries → Option Entries) (entries : Entries) :
    (path : List String) → Option Entries
  | [] => change entries
  | step :: path =>
    match entries.lookup step with
    | some (.table origin inner) => do
      return entries.put step (.table origin (← within? change inner path))
    | _ => none

end Entries

end Jack.Toml
