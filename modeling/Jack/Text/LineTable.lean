import Jack.Text.Span

/-!
# From offsets to lines

A table of the offsets at which lines start answers on which line an offset lies, by bisection.
-/

namespace Jack

/-- The offsets at which the lines of a text start, in order; the first line starts at zero. -/
structure LineTable where
  starts : Array Nat
deriving DecidableEq, Repr, Inhabited

namespace LineTable

/-- The offsets right after each line feed of a text whose first byte has the given offset. -/
def startsAfter (offset : Nat) : List Char → List Nat
  | [] => []
  | c :: rest =>
    let next := offset + c.utf8Size
    if c = '\n' then next :: startsAfter next rest else startsAfter next rest

def ofText (text : String) : LineTable := ⟨(0 :: startsAfter 0 text.toList).toArray⟩

/-- Looks for the offset among the starts in `[low, high)`: the index at which it stands there, or as an error
the index at which it would have to be inserted. -/
def search (table : LineTable) (offset low high : Nat) : Except Nat Nat :=
  if low < high then
    let middle := (low + high) / 2
    let start := table.starts.getD middle 0
    if start = offset then .ok middle
    else if start < offset then table.search offset (middle + 1) high
    else table.search offset low middle
  else .error low
termination_by high - low

/-- The index of the last line that starts at or before the offset. -/
def indexOf (table : LineTable) (offset : Nat) : Nat :=
  match table.search offset 0 table.starts.size with
  | .ok exact => exact
  | .error insertion => insertion - 1

/-- The line of an offset, in 32 bits. An offset past the end of the text is on the last line. -/
def lineOf (table : LineTable) (offset : Nat) : Nat := (UInt32.ofNat (table.indexOf offset) + 1).toNat

def lineCount (table : LineTable) : Nat := table.starts.size

end LineTable

end Jack
