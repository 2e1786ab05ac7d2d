/-!
# Places in a source text

Offsets count UTF-8 bytes and lines count from one; only a line feed ends a line.
-/

namespace Jack

/-- A stretch of source text: the offsets of its first byte and of the byte after its last one, and
the line it starts on. -/
structure Span where
  start : Nat
  stop : Nat
  line : Nat
deriving DecidableEq, Repr, Inhabited

namespace Span

def point (offset line : Nat) : Span := ⟨offset, offset, line⟩

def origin : Span := point 0 1

end Span

/-- The number of bytes that UTF-8 takes for some characters. -/
def byteLength : List Char → Nat
  | [] => 0
  | c :: rest => c.utf8Size + byteLength rest

@[simp] theorem byteLength_append (front back : List Char) :
    byteLength (front ++ back) = byteLength front + byteLength back := by
  induction front with
  | nil => simp [byteLength]
  | cons c front ih => simp [byteLength, ih, Nat.add_assoc]

def newlineCount (text : List Char) : Nat := text.count '\n'

/-- A place between two characters: the bytes before it, and the line it is on. -/
structure Position where
  offset : Nat
  line : Nat
deriving DecidableEq, Repr, Inhabited

namespace Position

def start : Position := ⟨0, 1⟩

/-- The place after `text`, when `text` begins at `p`. -/
def past (p : Position) (text : List Char) : Position :=
  ⟨p.offset + byteLength text, p.line + newlineCount text⟩

/-- The stretch that `text` covers when it begins at `p`. -/
def cover (p : Position) (text : List Char) : Span :=
  ⟨p.offset, p.offset + byteLength text, p.line⟩

@[simp] theorem past_nil (p : Position) : p.past [] = p := by simp [past, byteLength, newlineCount]

theorem past_append (p : Position) (front back : List Char) :
    p.past (front ++ back) = (p.past front).past back := by
  simp [past, newlineCount, Nat.add_assoc]

end Position

end Jack
