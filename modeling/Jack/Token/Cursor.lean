import Jack.Token.Scan

/-!
# Streams of tokens

A stream hands out its tokens in order and its end token forever after. A cursor reads a stream with one
token of look-ahead and remembers the last token it read.
-/

namespace Jack

structure TokenStream where
  unread : List Token
  endToken : Token
deriving DecidableEq, Repr, Inhabited

namespace TokenStream

/-- The given tokens, followed by the end of input at the given place. -/
def ofTokens (tokens : List Token) (endOffset endLine : Nat) : TokenStream :=
  ⟨tokens, .endOfInput endOffset endLine⟩

def ofSource (source : String) : Except Diagnostic TokenStream :=
  (Token.scan source).map (⟨·, .endOf source⟩)

def peek (s : TokenStream) : Token := s.unread.headD s.endToken

def next (s : TokenStream) : Token × TokenStream := (s.peek, { s with unread := s.unread.tail })

def take : Nat → TokenStream → List Token
  | 0, _ => []
  | n + 1, s => s.next.1 :: take n s.next.2

end TokenStream

/-- A place in a stream of tokens: what is still to be read, and the token read last, if any. -/
structure Cursor where
  stream : TokenStream
  current : Option Token
deriving DecidableEq, Repr, Inhabited

namespace Cursor

def atStart (stream : TokenStream) : Cursor := ⟨stream, none⟩

def peek (c : Cursor) : Token := c.stream.peek

def unread (c : Cursor) : List Token := c.stream.unread

def advance (c : Cursor) : Cursor := ⟨c.stream.next.2, some c.peek⟩

@[simp] theorem unread_advance (c : Cursor) : c.advance.unread = c.unread.tail := rfl

theorem peek_eq (c : Cursor) : c.peek = c.unread.headD c.stream.endToken := rfl

def atEnd (c : Cursor) : Bool := c.peek.isEof

/-- The cursor and the places it reaches in the next `n` steps. -/
def walk : Nat → Cursor → List Cursor
  | 0, c => [c]
  | n + 1, c => c :: walk n c.advance

end Cursor

end Jack
